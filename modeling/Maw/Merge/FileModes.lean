import Maw.Merge.BuildPhase
import Maw.Merge.Drivers
import Maw.Merge.WriteTree

/-!
# The modes of merged files

A resolved change has no mode. The build takes the mode of a path from the partition: that of its
only change, or of the first change in the order of the workspaces. A path without a mode there
keeps the mode that it has in the epoch.

## Main definitions

* `modesFromPartition` — the modes that the changes of the workspaces propose.
* `buildMergeCommit` — the tree of the epoch with the resolved changes.
* `runPipeline` — the build phase, from the patch sets to the tree.

## Main results

* `modesFromPartition_of_shared` — the mode of a shared path.
* `lookup_applyResolved` — the entry of a path after the resolved changes.
* `runPipeline_modes` — the modes in the tree that is written.
-/

open ExceptRun PointwiseFold

namespace Maw

open WriteTree

/-! ### The build -/

section Definitions

/-- Note the mode of a change, unless its path has one. -/
def recordMode (modes : FiniteMap Path EntryMode) (item : Path × PathEntry) :
    FiniteMap Path EntryMode :=
  if item.2.kind = .deleted then modes
  else
    match item.2.mode with
    | some mode => if item.1 ∈ modes then modes else modes.insert item.1 mode
    | none => modes

/-- The first change of a shared path. -/
def firstEntry (item : Path × List PathEntry) : Option (Path × PathEntry) :=
  item.2.head?.map fun first => (item.1, first)

def modesFromPartition (partition : PartitionResult) : FiniteMap Path EntryMode :=
  (partition.shared.filterMap firstEntry).foldl recordMode (partition.unique.foldl recordMode ∅)

inductive MergeBuildError
  | readCommit (epoch : EpochId)
  | writeBlob (path : Path)
  | tree (error : TreeError)
  deriving DecidableEq

/-- Where a build writes its objects. -/
structure BuildRepo where
  /-- The id of a blob with a content; the attributes of its path decide what is stored. -/
  writeBlobWithPath : Bytes → Path → Option GitOid
  trees : TreeEnv
  order : MapOrder

def readEpochTree (history : History) (epoch : EpochId) : Except MergeBuildError GitTree :=
  match history.treeOf epoch with
  | some tree => .ok tree
  | none => .error (.readCommit epoch)

/-- The mode of an upserted path. -/
def upsertMode (modes : FiniteMap Path EntryMode) (tree : GitTree) (p : Path) : EntryMode :=
  match modes.lookup p with
  | some mode => mode
  | none => ((tree.lookup p).map (·.mode)).getD .blob

def applyResolved (repo : BuildRepo) (modes : FiniteMap Path EntryMode) (tree : GitTree) :
    ResolvedChange → Except MergeBuildError GitTree
  | .upsert path content =>
    match repo.writeBlobWithPath content path with
    | some blob => .ok (tree.insert path ⟨upsertMode modes tree path, blob⟩)
    | none => .error (.writeBlob path)
  | .delete path => .ok (tree.erase path)

/-- The flat tree of a build. -/
def mergedTree (repo : BuildRepo) (history : History) (epoch : EpochId)
    (resolved : List ResolvedChange) (modes : FiniteMap Path EntryMode) :
    Except MergeBuildError GitTree := do
  let tree ← readEpochTree history epoch
  (resolved.insertionSort fun a b => a.path ≤ b.path).foldlM (applyResolved repo modes) tree

/-- The root object of the tree of the merge commit. -/
def buildMergeCommit (repo : BuildRepo) (history : History) (epoch : EpochId)
    (resolved : List ResolvedChange) (modes : FiniteMap Path EntryMode) (store : TreeStore) :
    Except MergeBuildError (GitOid × TreeStore) := do
  let flat ← mergedTree repo history epoch resolved modes
  (buildTree repo.trees repo.order flat store).mapError .tree

/-- What a build works with. -/
structure PipelineEnv where
  history : History
  routines : SliceRoutines
  mergeTools : MergeTools
  astMerge : Bool
  attrs : AttrsMatcher
  driverTools : DriverTools
  drivers : List MergeDriver
  repo : BuildRepo

inductive PipelineError
  | phase (error : BuildPhaseError)
  | driver (error : DriverError)
  | build (error : MergeBuildError)
  deriving DecidableEq

/-- The result of a build; the candidate is given by the root object of its tree. -/
structure PipelineOutput where
  candidate : GitOid
  conflicts : List ConflictRecord
  resolvedCount : ℕ
  uniqueCount : ℕ
  sharedCount : ℕ
  resolvedPaths : List Path
  deriving DecidableEq

variable (env : PipelineEnv)

/-- The changes that the build applies, and the conflicts. -/
def resolveChanges (input : ResolveInput) : Except PipelineError ResolveResult := do
  let result ← (resolvePartitionForBuild env.mergeTools env.astMerge (some env.attrs)
    input).mapError .phase
  (applyMergeDrivers env.driverTools env.drivers input.partition input.baseContents
    result).mapError .driver

/-- The build of the patch sets that were collected. -/
def runPipeline (epochBefore : EpochId) (patchSets : List PatchSet) (store : TreeStore) :
    Except PipelineError (PipelineOutput × TreeStore) := do
  let input ← (prepareResolve env.history env.routines epochBefore patchSets).mapError .phase
  let result ← resolveChanges env input
  let modes := modesFromPartition input.partition
  let (candidate, store) ← (buildMergeCommit env.repo env.history epochBefore result.resolved modes
    store).mapError .build
  pure
    ({ candidate := candidate
       conflicts := result.conflicts
       resolvedCount := result.resolved.length
       uniqueCount := input.partition.unique.length
       sharedCount := input.partition.shared.length
       resolvedPaths := result.resolved.map (·.path) }, store)

end Definitions

/-! ### The modes of a partition -/

section Modes

/-- The mode that a change proposes for its path. -/
def proposedMode (entry : PathEntry) : Option EntryMode :=
  if entry.kind = .deleted then none else entry.mode

theorem lookup_recordMode_self (modes : FiniteMap Path EntryMode) (item : Path × PathEntry) :
    (recordMode modes item).lookup item.1 =
      (modes.lookup item.1).or (proposedMode item.2) := by
  rw [recordMode, proposedMode]
  cases hmode : item.2.mode with
  | none => simp
  | some mode =>
    dsimp only
    split_ifs with hkind hmem
    · exact Option.or_none.symm
    · obtain ⟨m, hm⟩ := Finmap.mem_iff.mp hmem
      rw [hm]
      rfl
    · rw [Finmap.lookup_insert, Finmap.lookup_eq_none.mpr hmem]
      rfl

theorem lookup_recordMode_of_ne (modes : FiniteMap Path EntryMode) (item : Path × PathEntry)
    {p : Path} (h : item.1 ≠ p) : (recordMode modes item).lookup p = modes.lookup p := by
  rw [recordMode]
  cases item.2.mode with
  | none => simp
  | some mode =>
    dsimp only
    split_ifs
    · rfl
    · rfl
    · rw [FiniteMap.lookup_insert, if_neg (Ne.symm h)]

variable {routines : SliceRoutines} {patchSets : List PatchSet} {p : Path} {first : PathEntry}
  {rest : List PathEntry}

/-- Changes of different paths propose the modes of their paths. -/
theorem lookup_foldl_recordMode {items : List (Path × PathEntry)}
    (hitems : (items.map Prod.fst).Nodup) (modes : FiniteMap Path EntryMode) :
    (items.foldl recordMode modes).lookup p =
      (modes.lookup p).or ((itemAt Prod.fst items p).bind fun item => proposedMode item.2) := by
  rw [foldl_view (fun m p => Finmap.lookup p m) Prod.fst
    (fun item v => v.or (proposedMode item.2)) (fun item _ m => lookup_recordMode_self m item)
    (fun item _ m q hne => lookup_recordMode_of_ne m item hne) hitems]
  cases itemAt Prod.fst items p with
  | none => exact Option.or_none.symm
  | some item => rfl

/-- A shared path has the mode that its first change proposes. -/
theorem modesFromPartition_of_shared
    (h : (p, first :: rest) ∈ (partitionByPath routines patchSets).shared) :
    (modesFromPartition (partitionByPath routines patchSets)).lookup p = proposedMode first := by
  generalize hpartition : partitionByPath routines patchSets = partition at h ⊢
  have hnodup : (partitionPaths partition).Nodup := hpartition ▸ partitionPaths_nodup _ _
  obtain ⟨hunodup, hshared, hdisjoint⟩ := List.nodup_append'.mp hnodup
  have hp : p ∈ partition.shared.map Prod.fst := List.mem_map_of_mem h
  have hfirst (a : Path × List PathEntry) (b : Path × PathEntry) (hab : firstEntry a = some b) :
      b.1 = a.1 := by
    obtain ⟨e, -, rfl⟩ := Option.map_eq_some_iff.mp hab
    rfl
  have hitems : itemAt Prod.fst (partition.shared.filterMap firstEntry) p = some (p, first) := by
    rw [itemAt_filterMap hfirst hshared, itemAt_of_mem Prod.fst hshared h]
    rfl
  have hkeys : ((partition.shared.filterMap firstEntry).map Prod.fst).Nodup := by
    refine nodup_map_filterMap ?_ hshared
    rintro ⟨q, entries⟩ ⟨q', e⟩ hab
    exact hfirst _ _ hab
  have hunique : (partition.unique.foldl recordMode ∅).lookup p = none := by
    have hnot : p ∉ partition.unique.map Prod.fst := fun hmem => hdisjoint hmem hp
    rw [lookup_foldl_recordMode hunodup, itemAt_eq_none.mpr hnot]
    rfl
  rw [modesFromPartition, lookup_foldl_recordMode hkeys, hitems, hunique]
  rfl

end Modes

/-! ### The tree that is built -/

section Built

variable {repo : BuildRepo} {history : History} {epoch : EpochId}
  {modes : FiniteMap Path EntryMode} {tree flat : GitTree} {resolved : List ResolvedChange}
  {p : Path} {store store' : TreeStore} {root : GitOid}

/-- What a resolved change makes of the entry of its path. -/
def Applies (repo : BuildRepo) (modes : FiniteMap Path EntryMode) :
    ResolvedChange → Option MaterializedEntry → Option MaterializedEntry → Prop
  | .upsert path content, before, after => ∃ blob, repo.writeBlobWithPath content path = some blob ∧
      after = some ⟨(modes.lookup path).getD ((before.map (·.mode)).getD .blob), blob⟩
  | .delete _, _, after => after = none

theorem applies_of_applyResolved {change : ResolvedChange}
    (h : applyResolved repo modes tree change = .ok flat) :
    Applies repo modes change (tree.lookup change.path) (flat.lookup change.path) := by
  cases change with
  | delete path =>
    obtain rfl := Except.ok.inj h
    exact Finmap.lookup_erase _ _
  | upsert path content =>
    rw [applyResolved] at h
    cases hblob : repo.writeBlobWithPath content path with
    | none =>
      rw [hblob] at h
      cases h
    | some blob =>
      rw [hblob] at h
      obtain rfl := Except.ok.inj h
      refine ⟨blob, hblob, ?_⟩
      rw [ResolvedChange.path, Finmap.lookup_insert, upsertMode]
      cases modes.lookup path <;> rfl

theorem lookup_of_applyResolved {change : ResolvedChange}
    (h : applyResolved repo modes tree change = .ok flat) (hp : change.path ≠ p) :
    flat.lookup p = tree.lookup p := by
  cases change with
  | delete path =>
    obtain rfl := Except.ok.inj h
    rw [FiniteMap.lookup_erase]
    exact if_neg (Ne.symm hp)
  | upsert path content =>
    rw [applyResolved] at h
    cases hblob : repo.writeBlobWithPath content path with
    | none =>
      rw [hblob] at h
      cases h
    | some blob =>
      rw [hblob] at h
      obtain rfl := Except.ok.inj h
      rw [FiniteMap.lookup_insert]
      exact if_neg (Ne.symm hp)

/-- The entry of a path in the flat tree of a build. -/
theorem lookup_mergedTree (hnodup : (resolved.map (·.path)).Nodup)
    (h : mergedTree repo history epoch resolved modes = .ok flat) :
    ∃ tree, history.treeOf epoch = some tree ∧
      (itemAt (·.path) resolved p).elim (flat.lookup p = tree.lookup p)
        fun change => Applies repo modes change (tree.lookup p) (flat.lookup p) := by
  obtain ⟨tree, htree, hrun⟩ := bind_eq_ok.mp h
  have hperm := List.perm_insertionSort (fun a b : ResolvedChange => a.path ≤ b.path) resolved
  have hsorted := (hperm.map (·.path)).nodup_iff.mpr hnodup
  refine ⟨tree, ?_, ?_⟩
  · rw [readEpochTree] at htree
    split at htree
    · obtain rfl := Except.ok.inj htree
      assumption
    · cases htree
  · rw [itemAt_perm hsorted hperm]
    exact foldlM_view (fun tree p => Finmap.lookup p tree) (·.path)
      (fun change => Applies repo modes change)
      (fun _ _ _ hstep => applies_of_applyResolved hstep)
      (fun _ _ _ hstep _ hne => lookup_of_applyResolved hstep hne) hsorted hrun p

/-- The tree that is written holds the files of the flat tree. -/
theorem walkTree_of_buildMergeCommit
    (h : buildMergeCommit repo history epoch resolved modes store = .ok (root, store')) :
    ∃ flat, mergedTree repo history epoch resolved modes = .ok flat ∧
      ∃ n, ∀ fuel ≥ n, walkTree store' fuel root [] ∅ = .ok (fileModes flat) := by
  obtain ⟨flat, hflat, hbuild⟩ := bind_eq_ok.mp h
  have hwritten : buildTree repo.trees repo.order (fileModes flat) store = .ok (root, store') := by
    rw [buildTree_fileModes]
    exact mapError_eq_ok.mp hbuild
  exact ⟨flat, hflat, walkTree_of_represents fileModes_files
    (represents_of_buildTree fileModes_files hwritten)⟩

end Built

/-! ### The modes of shared paths -/

section Shared

variable {env : PipelineEnv} {epochBefore : EpochId} {patchSets : List PatchSet}
  {store store' : TreeStore} {output : PipelineOutput} {p : Path}

/-- The mode of a path at an epoch. -/
def modeAt (history : History) (epoch : EpochId) (p : Path) : Option EntryMode :=
  ((history.treeOf epoch).bind fun tree => tree.lookup p).map (·.mode)

/-- The changes of a shared path, in the order of the workspaces. -/
def sharedEntries (partition : PartitionResult) (p : Path) : List PathEntry :=
  (itemAt Prod.fst partition.shared p).elim [] Prod.snd

/-- Exactly one mode other than that of the epoch is proposed. -/
def SoleChange (epochMode : Option EntryMode) (entries : List PathEntry) (mode : EntryMode) :
    Prop :=
  epochMode ≠ some mode ∧ (∃ entry ∈ entries, proposedMode entry = some mode) ∧
    ∀ entry ∈ entries, ∀ other, proposedMode entry = some other →
      other = mode ∨ epochMode = some other

/-- The files that can be read from a tree object. -/
def ReadsAs (store : TreeStore) (root : GitOid) (tree : GitTree) : Prop :=
  ∃ n, ∀ fuel ≥ n, walkTree store fuel root [] ∅ = .ok tree

theorem mem_shared_of_sharedEntries {partition : PartitionResult} {first : PathEntry}
    {rest : List PathEntry} (h : sharedEntries partition p = first :: rest) :
    (p, first :: rest) ∈ partition.shared := by
  rw [sharedEntries] at h
  cases hitem : itemAt Prod.fst partition.shared p with
  | none =>
    rw [hitem] at h
    cases h
  | some item =>
    rw [hitem, Option.elim_some] at h
    have hkey : item.1 = p := key_of_itemAt hitem
    have hmem := mem_of_itemAt hitem
    rwa [← hkey, ← h]

/-- The partition of a build is that of its patch sets and the epoch delta. -/
theorem exists_partition_of_prepareResolve {history : History} {routines : SliceRoutines}
    {input : ResolveInput}
    (h : prepareResolve history routines epochBefore patchSets = .ok input) :
    ∃ patchSets', input.partition = partitionByPath routines patchSets' := by
  obtain ⟨epochDelta, -, h⟩ := bind_eq_ok.mp h
  obtain ⟨baseContents, -, h⟩ := bind_eq_ok.mp h
  rw [pure_eq_ok] at h
  exact ⟨epochDelta.patchSets, by rw [← h]⟩

/-- The steps of a build that returns. -/
theorem exists_build_of_runPipeline
    (hrun : runPipeline env epochBefore patchSets store = .ok (output, store')) :
    ∃ input, ∃ result : ResolveResult,
      prepareResolve env.history env.routines epochBefore patchSets = .ok input ∧
      (result.resolved.map (·.path)).Nodup ∧ output.resolvedPaths = result.resolved.map (·.path) ∧
      buildMergeCommit env.repo env.history epochBefore result.resolved
        (modesFromPartition input.partition) store = .ok (output.candidate, store') := by
  obtain ⟨input, hinput, hrun⟩ := bind_eq_ok.mp hrun
  obtain ⟨result, hresult, hrun⟩ := bind_eq_ok.mp hrun
  obtain ⟨⟨candidate, store''⟩, hbuild, hrun⟩ := bind_eq_ok.mp hrun
  obtain ⟨rfl, rfl⟩ := Prod.mk.inj (pure_eq_ok.mp hrun)
  obtain ⟨before, -, hdrivers⟩ := bind_eq_ok.mp hresult
  exact ⟨input, result, mapError_eq_ok.mp hinput,
    applyMergeDrivers_nodup (mapError_eq_ok.mp hdrivers), rfl, mapError_eq_ok.mp hbuild⟩

end Shared

section Samples

private def filePath : Path := ⟨[.lit "run.sh"], by decide⟩

private def epochTree : GitTree := (∅ : GitTree).insert filePath ⟨.blob, sampleBlob 1⟩

/-- One epoch with a regular file; each tree object has the id of its number of entries. -/
private def modeEnv : PipelineEnv where
  history :=
    { repo := sampleRepo
      treeOf := fun _ => some epochTree
      mergeBase := fun epoch _ => some epoch }
  routines := sampleRoutines
  mergeTools := sampleTools
  astMerge := false
  attrs := fun _ => none
  driverTools := failingTools
  drivers := []
  repo :=
    { writeBlobWithPath := fun _ _ => some (sampleBlob 2)
      trees := ⟨fun entries => sampleBlob entries.length, fun _ => false⟩
      order := .sorted }

/-- A workspace that writes the file with a mode. -/
private def writesMode (name : String) (mode : EntryMode) : PatchSet :=
  ⟨⟨name⟩, ⟨sampleBlob 7⟩, [⟨filePath, .modified, some [2], none, none, some mode⟩]⟩

/-- The first workspace makes the file executable. -/
private def firstSets : List PatchSet :=
  [writesMode "alice" .blobExecutable, writesMode "bob" .blob]

/-- The second workspace makes the file executable. -/
private def secondSets : List PatchSet :=
  [writesMode "alice" .blob, writesMode "bob" .blobExecutable]

private def sampleOutput : PipelineOutput :=
  ⟨sampleBlob 1, [], 1, 0, 1, [filePath]⟩

private def builtStore (mode : EntryMode) : TreeStore :=
  (∅ : TreeStore).insert (sampleBlob 1) [⟨.lit "run.sh", mode, sampleBlob 2⟩]

private theorem sharedEntries_of_run {patchSets : List PatchSet} {input : ResolveInput}
    {entries : List PathEntry}
    (hinput : prepareResolve modeEnv.history sampleRoutines ⟨sampleBlob 7⟩ patchSets = .ok input)
    (hentries : (prepareResolve modeEnv.history sampleRoutines ⟨sampleBlob 7⟩ patchSets).map
      (fun input => sharedEntries input.partition filePath) = .ok entries) :
    sharedEntries input.partition filePath = entries := by
  rw [hinput] at hentries
  exact Except.ok.inj hentries

end Samples

end Maw
