import Maw.Worktree.Snapshot
import Maw.Worktree.Touched

/-!
# Absorbing a fast-forward

When the target branch has moved on from the epoch, a merge first takes the epoch to the branch.
This is taken to be safe if no workspace has touched a path that differs between the two. The
other workspaces then follow: one without commits gets exactly those paths on disk, whatever the
commit is that it was on.

## Main definitions

* `AbsorbWorld` — the workspaces and the epoch.
* `evaluateFfSafety`, `computeFfChangedPaths` — the test.
* `syncFfPathsInWorktree` — how a workspace follows.
* `reconcileEpochWithBranch` — the absorption.
* `AbsorbedRightly`, `FollowsCleanly` — what it is to do, and when it does.

## Main results

* `reconcile_absorbedRightly_iff` — every workspace that is on its base commit follows rightly
  exactly when it follows cleanly.
-/

open ExceptRun KeyedSort

namespace Maw

/-! ### Files on disk -/

namespace Occupant

/-- What a checkout puts on disk for an entry. -/
def ofEntry : MaterializedEntry → Option Occupant
  | ⟨.blob, oid⟩ => some (regular oid)
  | ⟨.blobExecutable, oid⟩ => some (executable oid)
  | ⟨.link, oid⟩ => some (symlink oid)
  | _ => none

theorem entry_of_ofEntry {e : MaterializedEntry} {occupant : Occupant}
    (h : ofEntry e = some occupant) : occupant.entry = some e := by
  obtain ⟨mode, oid⟩ := e
  cases mode <;> simp_all [ofEntry] <;> subst h <;> rfl

/-- Whether a file or a link can take the place of what stands there. -/
def givesWayTo : Occupant → Occupant → Bool
  | repository _, _ => false
  | special, symlink _ => true
  | special, _ => false
  | _, _ => true

end Occupant

namespace Disk

variable (disk : Disk) (p : Path) (occupant : Occupant)

/-- Nothing stands above or below the path, and what stands there gives way. -/
def CanWrite : Prop :=
  (∀ q ∈ disk.occupants.keys, ¬ q.Comparable p) ∧
    ∀ old, disk.occupants.lookup p = some old → old.givesWayTo occupant = true

instance : Decidable (disk.CanWrite p occupant) :=
  decidable_of_iff ((∀ q ∈ disk.occupants.keys, ¬ q.Comparable p) ∧
      (disk.occupants.lookup p).all (·.givesWayTo occupant)) <| by
    rw [CanWrite]
    rcases disk.occupants.lookup p <;> simp

/-- Write a file or a link, if that succeeds. -/
def writeFile : Option Disk :=
  if h : disk.CanWrite p occupant then
    some
      { occupants := disk.occupants.insert p occupant
        prefixFree := by
          have hold {q : Path} (hq : (disk.occupants.insert p occupant).lookup q ≠ none)
              (hqp : q ≠ p) : disk.occupants.lookup q ≠ none := by
            rwa [FiniteMap.lookup_insert, if_neg hqp] at hq
          have hkey {q : Path} (hq : disk.occupants.lookup q ≠ none) :
              q ∈ disk.occupants.keys := by
            rwa [Finmap.mem_keys, ← not_not (a := q ∈ disk.occupants), ← Finmap.lookup_eq_none]
          intro a ha b hb habove
          by_cases hap : a = p
          · subst hap
            exact h.1 b (hkey (hold hb habove.ne.symm)) (.inr habove)
          · by_cases hbp : b = p
            · subst hbp
              exact h.1 a (hkey (hold ha hap)) (.inl habove)
            · exact disk.prefixFree a (hold ha hap) b (hold hb hbp) habove }
  else none

/-- Remove what stands at a path, if that succeeds; a plain directory stays. -/
def removeFile : Option Disk :=
  match disk.occupants.lookup p with
  | none => some disk
  | some (.repository _) => none
  | some _ =>
    some
      { occupants := disk.occupants.erase p
        prefixFree := disk.prefixFree.mono fun q hq => by
          have hlookup : (disk.occupants.erase p).lookup q ≠ none := hq
          rw [FiniteMap.lookup_erase] at hlookup
          split_ifs at hlookup
          · exact absurd rfl hlookup
          · exact hlookup }

variable {disk p occupant} {disk' : Disk} {q : Path}

theorem lookup_writeFile (h : disk.writeFile p occupant = some disk') :
    disk'.occupants.lookup q = if q = p then some occupant else disk.occupants.lookup q := by
  unfold writeFile at h
  split_ifs at h
  obtain rfl := Option.some.inj h
  exact FiniteMap.lookup_insert _ _ _ _

theorem lookup_removeFile (h : disk.removeFile p = some disk') :
    disk'.occupants.lookup q = if q = p then none else disk.occupants.lookup q := by
  unfold removeFile at h
  split at h
  · obtain rfl := Option.some.inj h
    split_ifs with hq
    · rw [hq]
      assumption
    · rfl
  · exact absurd h (by simp)
  · obtain rfl := Option.some.inj h
    exact FiniteMap.lookup_erase _ _ _

end Disk

/-! ### Following the branch -/

/-- Put the state of a path in a tree on disk, if that succeeds; what the tree has there is not
always a file or a link, and then nothing is left. -/
def tryApplyOnePath (tree : GitTree) (disk : Disk) (p : Path) : Option Disk :=
  match (tree.lookup p).bind Occupant.ofEntry with
  | some occupant => disk.writeFile p occupant
  | none => disk.removeFile p

/-- Put the state of a path in a tree on disk; a failure changes nothing. -/
def ffApplyOnePath (tree : GitTree) (disk : Disk) (p : Path) : Disk :=
  (tryApplyOnePath tree disk p).getD disk

/-- The paths one after another. -/
def ffApplyPaths (tree : GitTree) (paths : List Path) (disk : Disk) : Disk :=
  paths.foldl (ffApplyOnePath tree) disk

/-- No path fails. -/
def WritesSucceed (tree : GitTree) : List Path → Disk → Prop
  | [], _ => True
  | p :: paths, disk => (tryApplyOnePath tree disk p).isSome = true ∧
    WritesSucceed tree paths (ffApplyOnePath tree disk p)

instance (tree : GitTree) : ∀ (paths : List Path) (disk : Disk),
    Decidable (WritesSucceed tree paths disk)
  | [], _ => inferInstanceAs (Decidable True)
  | p :: paths, disk =>
    have := instDecidableWritesSucceed tree paths (ffApplyOnePath tree disk p)
    inferInstanceAs (Decidable (_ ∧ _))

section Apply

variable {tree : GitTree} {disk disk' : Disk} {p q : Path} {paths : List Path}

theorem lookup_tryApplyOnePath (h : tryApplyOnePath tree disk p = some disk') :
    disk'.occupants.lookup q =
      if q = p then (tree.lookup p).bind Occupant.ofEntry else disk.occupants.lookup q := by
  unfold tryApplyOnePath at h
  split at h
  · rename_i occupant hoccupant
    rw [Disk.lookup_writeFile h, hoccupant]
  · rename_i hnone
    rw [Disk.lookup_removeFile h, hnone]

/-- A repository does not make way for anything. -/
theorem ne_repository_of_tryApply (h : (tryApplyOnePath tree disk p).isSome = true)
    (head : Option GitOid) : disk.occupants.lookup p ≠ some (.repository head) := by
  intro hdisk
  unfold tryApplyOnePath at h
  split at h
  · rw [Disk.writeFile, dif_neg] at h
    · exact absurd h (by simp)
    · intro hcan
      exact absurd (hcan.2 _ hdisk) (by simp [Occupant.givesWayTo])
  · simp [Disk.removeFile, hdisk] at h

/-- When no path fails, the paths are on disk as they are in the tree, and there is no repository
in their places before. -/
theorem lookup_ffApplyPaths (hwrites : WritesSucceed tree paths disk) (hnodup : paths.Nodup) :
    (ffApplyPaths tree paths disk).occupants.lookup q =
        (if q ∈ paths then (tree.lookup q).bind Occupant.ofEntry else disk.occupants.lookup q) ∧
      (q ∈ paths → ∀ head, disk.occupants.lookup q ≠ some (.repository head)) := by
  induction paths generalizing disk with
  | nil => simp [ffApplyPaths]
  | cons p paths ih =>
    obtain ⟨hsome, hwrites⟩ := hwrites
    rw [List.nodup_cons] at hnodup
    obtain ⟨disk', hstep⟩ := Option.isSome_iff_exists.mp hsome
    have happly : ffApplyOnePath tree disk p = disk' := by rw [ffApplyOnePath, hstep]; rfl
    obtain ⟨hlookup, hrepo⟩ := ih hwrites hnodup.2
    rw [happly, lookup_tryApplyOnePath hstep] at hlookup hrepo
    have hfold : ffApplyPaths tree (p :: paths) disk = ffApplyPaths tree paths disk' := by
      rw [ffApplyPaths, List.foldl_cons, happly]
      rfl
    rw [hfold, hlookup]
    by_cases hqp : q = p
    · subst hqp
      refine ⟨by simp [hnodup.1], fun _ => ne_repository_of_tryApply hsome⟩
    · refine ⟨by simp [hqp], fun hq => ?_⟩
      rw [if_neg hqp] at hrepo
      exact hrepo ((List.mem_cons.mp hq).resolve_left hqp)

end Apply

/-! ### The workspaces and the epoch -/

/-- The current epoch and the workspaces, with the one that is merged into kept apart. -/
structure AbsorbWorld where
  epoch : GitOid
  target : Workspace
  siblings : List Workspace

structure WorkspaceTouchedPaths where
  name : String
  paths : Finset Path

inductive FfAbsorbDecision
  | safe
  | blocked (affectedWorkspaces : Finset String)
  deriving DecidableEq

inductive ReconcileError
  | diverged (affectedWorkspaces : Finset String)
  | touched (error : DiffError)
  deriving DecidableEq

inductive FfReconcile
  | inSync
  | absorbed (newEpoch : GitOid) (count : Nat)
  deriving DecidableEq

inductive SiblingPlan
  | synced
  | blocked
  | fastForward (dirty : Bool)
  | replay (baseEpoch : GitOid)
  deriving DecidableEq

/-- Whether some workspace has touched one of the paths. -/
def evaluateFfSafety (ffPaths : Finset Path) (workspaces : List WorkspaceTouchedPaths) :
    FfAbsorbDecision :=
  let affected := ((workspaces.filter fun ws => ¬ Disjoint ws.paths ffPaths).map (·.name)).toFinset
  if ffPaths = ∅ ∨ affected = ∅ then .safe else .blocked affected

theorem disjoint_of_evaluateFfSafety {ffPaths : Finset Path}
    {workspaces : List WorkspaceTouchedPaths} (h : evaluateFfSafety ffPaths workspaces = .safe)
    {ws : WorkspaceTouchedPaths} (hws : ws ∈ workspaces) : Disjoint ws.paths ffPaths := by
  simp only [evaluateFfSafety] at h
  split_ifs at h with hsafe
  rcases hsafe with hempty | hnone
  · rw [hempty]
    exact Finset.disjoint_empty_right _
  · by_contra hmeet
    have hmem : ws.name ∈ ((workspaces.filter fun ws =>
        ¬ Disjoint ws.paths ffPaths).map (·.name)).toFinset := by
      rw [List.mem_toFinset, List.mem_map]
      exact ⟨ws, List.mem_filter.mpr ⟨hws, by simpa using hmeet⟩, rfl⟩
    rw [hnone] at hmem
    exact absurd hmem (Finset.notMem_empty _)

/-- The uncommitted paths of a worktree. -/
def dirtyPathsInWorkspace (ignored : Disk → Path → Bool) (wt : Worktree) : Finset Path :=
  (wt.index.keys ∪ wt.disk.occupants.keys).filter fun p =>
    unstagedStatus ignored wt.index wt.disk p ≠ none

/-- The paths at which two trees differ. -/
def computeFfChangedPaths (epoch branch : GitTree) : Finset Path :=
  (epoch.keys ∪ branch.keys).filter fun p => epoch.lookup p ≠ branch.lookup p

theorem mem_computeFfChangedPaths {epoch branch : GitTree} {p : Path} :
    p ∈ computeFfChangedPaths epoch branch ↔ epoch.lookup p ≠ branch.lookup p := by
  rw [computeFfChangedPaths, Finset.mem_filter]
  refine and_iff_right_of_imp fun hne => ?_
  by_contra hp
  rw [Finset.mem_union, not_or, Finmap.mem_keys, Finmap.mem_keys, ← Finmap.lookup_eq_none,
    ← Finmap.lookup_eq_none] at hp
  exact hne (hp.1.trans hp.2.symm)

/-- The repository, and the rebase by which a workspace with commits follows. -/
structure AbsorbEnv where
  commits : CommitStore
  ancestry : AncestryTest commits
  probes : WorktreeProbes
  /-- The number of commits from one commit to another, if they can be walked. -/
  walkCommits : GitOid → GitOid → Option Nat
  rebaseSiblingForAbsorb : Workspace → (baseEpoch branch : GitOid) → Except ReconcileError Workspace

section Reconcile

variable (env : AbsorbEnv)

def isStrictAncestor (epoch branch : GitOid) : Bool :=
  epoch ≠ branch && env.ancestry.isAncestor epoch branch

/-- What a workspace has touched. -/
def collectTouchedWorkspace (s : Workspace) : Except ReconcileError WorkspaceTouchedPaths := do
  let patches ← (computePatchset env.probes (env.commits.treeOf s.baseEpoch) s.worktree).mapError
    ReconcileError.touched
  pure ⟨s.name, touchedPathsFromPatchset patches⟩

/-- How a workspace is to follow. -/
def siblingPlan (epoch branch : GitOid) (s : Workspace) : SiblingPlan :=
  let baseEpoch := s.epochRef.getD epoch
  let dirty := dirtyPathsInWorkspace env.probes.ignored s.worktree ≠ ∅
  if baseEpoch = branch then .synced
  else if s.worktree.head ≠ baseEpoch then if dirty then .blocked else .replay baseEpoch
  else .fastForward dirty

/-- Put the changed paths on disk, then take HEAD and the index to the branch. -/
def syncFfPathsInWorktree (branch : GitOid) (ffPaths : Finset Path) (wt : Worktree) : Worktree where
  head := branch
  index := env.commits.treeOf branch
  disk := ffApplyPaths (env.commits.treeOf branch)
    (inOrderOf id Function.injective_id ffPaths) wt.disk

/-- Let a workspace follow. -/
def followBranch (epoch branch : GitOid) (ffPaths : Finset Path) (s : Workspace) :
    Except ReconcileError Workspace :=
  match siblingPlan env epoch branch s with
  | .synced => pure s
  | .blocked => throw (.diverged {s.name})
  | .replay baseEpoch => env.rebaseSiblingForAbsorb s baseEpoch branch
  | .fastForward _ =>
    pure { s with
      epochRef := some branch
      worktree := syncFfPathsInWorktree env branch ffPaths s.worktree }

/-- Take the epoch to the branch. -/
def absorbFf (branch : GitOid) (w : AbsorbWorld) :
    Except ReconcileError (FfReconcile × AbsorbWorld) := do
  let ffPaths := computeFfChangedPaths (env.commits.treeOf w.epoch) (env.commits.treeOf branch)
  let siblings := w.siblings.map (healEpochRef env.ancestry (some w.epoch))
  let touched ← siblings.mapM (collectTouchedWorkspace env)
  let target : WorkspaceTouchedPaths :=
    ⟨w.target.name, dirtyPathsInWorkspace env.probes.ignored w.target.worktree⟩
  match evaluateFfSafety ffPaths (target :: touched) with
  | .blocked affected => throw (.diverged affected)
  | .safe =>
    let blocked := siblings.filter fun s => siblingPlan env w.epoch branch s = .blocked
    if blocked ≠ [] then throw (.diverged (blocked.map (·.name)).toFinset)
    else do
      let siblings ← siblings.mapM (followBranch env w.epoch branch ffPaths)
      pure (.absorbed branch ((env.walkCommits w.epoch branch).getD 0),
        ⟨branch, { w.target with epochRef := some branch }, siblings⟩)

/-- Reconcile the epoch with the branch. -/
def reconcileEpochWithBranch (autoAbsorbFf : Bool) (branch : GitOid) (w : AbsorbWorld) :
    Except ReconcileError (FfReconcile × AbsorbWorld) :=
  if w.epoch = branch then pure (.inSync, w)
  else if ¬ autoAbsorbFf ∨ ¬ isStrictAncestor env w.epoch branch then throw (.diverged ∅)
  else absorbFf env branch w

end Reconcile

/-! ### What is kept -/

/-- The worktree is on the branch, and its files are those of the branch with the edits that it
had against the base. -/
structure AbsorbedRightly (env : AbsorbEnv) (base branch : GitOid) (wt wt' : Worktree) : Prop where
  head : wt'.head = branch
  files : ∀ p, wt'.disk.entryAt p =
    if wt.disk.entryAt p = (env.commits.treeOf base).lookup p
      then (env.commits.treeOf branch).lookup p
      else wt.disk.entryAt p

/-- The unedited files outside the changed paths are the same in the base and the epoch, an edit
without a trace at a changed path is what the branch has there, and no repository comes at an
unedited changed path. -/
structure FollowsCleanly (env : AbsorbEnv) (base epoch branch : GitOid) (wt : Worktree) :
    Prop where
  unchanged : ∀ p, (env.commits.treeOf epoch).lookup p = (env.commits.treeOf branch).lookup p →
    wt.disk.entryAt p = (env.commits.treeOf base).lookup p →
    (env.commits.treeOf base).lookup p = (env.commits.treeOf epoch).lookup p
  untraced : ∀ p, (env.commits.treeOf epoch).lookup p ≠ (env.commits.treeOf branch).lookup p →
    wt.disk.entryAt p ≠ (env.commits.treeOf base).lookup p →
    Untraced env.probes (env.commits.treeOf base) wt p →
    wt.disk.entryAt p =
      (((env.commits.treeOf branch).lookup p).bind Occupant.ofEntry).bind Occupant.entry
  checkedOut : ∀ p, (env.commits.treeOf epoch).lookup p ≠ (env.commits.treeOf branch).lookup p →
    wt.disk.entryAt p = (env.commits.treeOf base).lookup p →
    ∀ e, (env.commits.treeOf branch).lookup p = some e → (Occupant.ofEntry e).isSome = true

section Absorbed

variable {env : AbsorbEnv} {base epoch branch : GitOid} {s s' : Workspace} {wt : Worktree}
  {ws : WorkspaceTouchedPaths} {w w' : AbsorbWorld} {p : Path}

/-- A workspace that is on its base commit is fast-forwarded. -/
theorem followBranch_eq (href : s.epochRef = some base) (hhead : s.worktree.head = base)
    (hbase : env.commits.IsAncestor base epoch)
    (hstrict : isStrictAncestor env epoch branch = true) (ffPaths : Finset Path) :
    followBranch env epoch branch ffPaths s = .ok { s with
      epochRef := some branch
      worktree := syncFfPathsInWorktree env branch ffPaths s.worktree } := by
  rw [isStrictAncestor, Bool.and_eq_true, decide_eq_true_iff, env.ancestry.isAncestor_iff]
    at hstrict
  have hne : base ≠ branch := by
    rintro rfl
    exact hstrict.1 (hstrict.2.antisymm hbase)
  simp only [followBranch, siblingPlan, href, Option.getD_some, hhead, if_neg hne, ne_eq,
    not_true_eq_false, if_false]
  rfl

/-- The files after a fast-forward. -/
theorem entryAt_syncFfPaths
    (hwrites : WritesSucceed (env.commits.treeOf branch) (inOrderOf id Function.injective_id
      (computeFfChangedPaths (env.commits.treeOf epoch) (env.commits.treeOf branch))) wt.disk) :
    (syncFfPathsInWorktree env branch (computeFfChangedPaths (env.commits.treeOf epoch)
        (env.commits.treeOf branch)) wt).disk.entryAt p =
      if (env.commits.treeOf epoch).lookup p = (env.commits.treeOf branch).lookup p
        then wt.disk.entryAt p
        else (((env.commits.treeOf branch).lookup p).bind Occupant.ofEntry).bind
          Occupant.entry := by
  have hmem : p ∈ inOrderOf id Function.injective_id
        (computeFfChangedPaths (env.commits.treeOf epoch) (env.commits.treeOf branch)) ↔
      (env.commits.treeOf epoch).lookup p ≠ (env.commits.treeOf branch).lookup p :=
    mem_inOrderOf.trans mem_computeFfChangedPaths
  rw [Disk.entryAt, syncFfPathsInWorktree, (lookup_ffApplyPaths hwrites nodup_inOrderOf).1]
  by_cases hsame : (env.commits.treeOf epoch).lookup p = (env.commits.treeOf branch).lookup p
  · rw [if_pos hsame, if_neg fun hin => hmem.mp hin hsame, Disk.entryAt]
  · rw [if_neg hsame, if_pos (hmem.mpr hsame)]

/-- When a workspace has touched no changed path, an edit at one has left no trace. -/
theorem untraced_of_disjoint
    (htouched : collectTouchedWorkspace env s = .ok ws)
    (hdisjoint : Disjoint ws.paths
      (computeFfChangedPaths (env.commits.treeOf epoch) (env.commits.treeOf branch)))
    (hrepo : ∀ head, s.worktree.disk.occupants.lookup p ≠ some (.repository head))
    (hchanged : (env.commits.treeOf epoch).lookup p ≠ (env.commits.treeOf branch).lookup p)
    (hedited : s.worktree.disk.entryAt p ≠ (env.commits.treeOf s.baseEpoch).lookup p) :
    Untraced env.probes (env.commits.treeOf s.baseEpoch) s.worktree p := by
  obtain ⟨patches, hpatches, h⟩ := bind_eq_ok.mp htouched
  obtain rfl := pure_eq_ok.mp h
  rcases mem_touchedPaths (mapError_eq_ok.mp hpatches) hrepo hedited with hmem | huntraced
  · exact absurd (mem_computeFfChangedPaths.mpr hchanged) (Finset.disjoint_left.mp hdisjoint hmem)
  · exact huntraced

/-- A fast-forwarded workspace is absorbed rightly exactly when it follows cleanly. -/
theorem sync_absorbedRightly_iff
    (huntraced : ∀ p, (∀ head, wt.disk.occupants.lookup p ≠ some (.repository head)) →
      (env.commits.treeOf epoch).lookup p ≠ (env.commits.treeOf branch).lookup p →
      wt.disk.entryAt p ≠ (env.commits.treeOf base).lookup p →
      Untraced env.probes (env.commits.treeOf base) wt p)
    (hwrites : WritesSucceed (env.commits.treeOf branch) (inOrderOf id Function.injective_id
      (computeFfChangedPaths (env.commits.treeOf epoch) (env.commits.treeOf branch))) wt.disk) :
    AbsorbedRightly env base branch wt (syncFfPathsInWorktree env branch
        (computeFfChangedPaths (env.commits.treeOf epoch) (env.commits.treeOf branch)) wt) ↔
      FollowsCleanly env base epoch branch wt := by
  have hcheckout (e : MaterializedEntry) : (Occupant.ofEntry e).bind Occupant.entry = some e ↔
      (Occupant.ofEntry e).isSome = true := by
    rcases hentry : Occupant.ofEntry e with _ | occupant
    · simp
    · simp [Occupant.entry_of_ofEntry hentry]
  constructor
  · rintro ⟨-, hfiles⟩
    refine ⟨fun p hsame hunedited => ?_, fun p hchanged hedited _ => ?_,
      fun p hchanged hunedited e he => ?_⟩
    · have h := hfiles p
      rw [entryAt_syncFfPaths hwrites, if_pos hsame, if_pos hunedited, ← hsame, hunedited] at h
      exact h
    · have h := hfiles p
      rw [entryAt_syncFfPaths hwrites, if_neg hchanged, if_neg hedited] at h
      exact h.symm
    · have h := hfiles p
      rw [entryAt_syncFfPaths hwrites, if_neg hchanged, if_pos hunedited, he] at h
      exact (hcheckout e).mp h
  · rintro ⟨hunchanged, hhidden, hout⟩
    refine ⟨rfl, fun p => ?_⟩
    rw [entryAt_syncFfPaths hwrites]
    split_ifs with hsame hunedited hunedited
    · rw [hunedited, hunchanged p hsame hunedited, hsame]
    · rfl
    · rcases hbranch : (env.commits.treeOf branch).lookup p with _ | e
      · rfl
      · exact (hcheckout e).mpr (hout p hsame hunedited e hbranch)
    · have hmem : p ∈ inOrderOf id Function.injective_id
          (computeFfChangedPaths (env.commits.treeOf epoch) (env.commits.treeOf branch)) :=
        mem_inOrderOf.mpr (mem_computeFfChangedPaths.mpr hsame)
      have hrepo := (lookup_ffApplyPaths hwrites nodup_inOrderOf).2 hmem
      exact (hhidden p hsame hunedited (huntraced p hrepo hsame hunedited)).symm

/-- Every workspace that is on its recorded base, which is not past the epoch, has the files of the
branch and its edits after an absorption exactly when it follows cleanly. -/
theorem reconcile_absorbedRightly_iff {autoAbsorbFf : Bool} {newEpoch : GitOid} {count : Nat}
    (h : reconcileEpochWithBranch env autoAbsorbFf branch w =
      .ok (.absorbed newEpoch count, w')) :
    List.Forall₂ (fun s s' => ∀ base, s.epochRef = some base → s.worktree.head = base →
      env.commits.IsAncestor base w.epoch →
      WritesSucceed (env.commits.treeOf branch) (inOrderOf id Function.injective_id
        (computeFfChangedPaths (env.commits.treeOf w.epoch) (env.commits.treeOf branch)))
        s.worktree.disk →
      (AbsorbedRightly env base branch s.worktree s'.worktree ↔
        FollowsCleanly env base w.epoch branch s.worktree)) w.siblings w'.siblings := by
  unfold reconcileEpochWithBranch at h
  split_ifs at h with hsync hrefused
  · exact absurd (congrArg Prod.fst (pure_eq_ok.mp h)) (by simp)
  rw [not_or, not_not, not_not] at hrefused
  obtain ⟨touched, htouched, h⟩ := bind_eq_ok.mp h
  simp only at h
  split at h
  · exact absurd h throw_ne_ok
  rename_i hsafe
  split_ifs at h
  obtain ⟨siblings, hfollow, h⟩ := bind_eq_ok.mp h
  obtain rfl : w'.siblings = siblings := congrArg (·.2.siblings) (pure_eq_ok.mp h).symm
  have hall := (List.forall₂_and_left w.siblings w'.siblings).mpr
    ⟨fun s hs => hs, List.forall₂_map_left_iff.mp (mapM_eq_ok hfollow)⟩
  refine hall.imp ?_
  rintro s s' ⟨hmem, hs⟩ base href hhead hbase hwrites
  have hheal : healEpochRef env.ancestry (some w.epoch) s = s := healEpochRef_eq hhead href
  rw [hheal, followBranch_eq href hhead hbase hrefused.2] at hs
  obtain rfl := Except.ok.inj hs
  -- What the workspace has touched was tested against the changed paths.
  obtain ⟨ws, hws, hcollect⟩ := exists_mem_of_mapM htouched (List.mem_map_of_mem hmem)
  rw [hheal] at hcollect
  have hdisjoint := disjoint_of_evaluateFfSafety hsafe (List.mem_cons_of_mem _ hws)
  have hbaseEpoch : s.baseEpoch = base := by rw [Workspace.baseEpoch, href]; rfl
  refine sync_absorbedRightly_iff (fun p hrepo hchanged hedited => ?_) hwrites
  rw [← hbaseEpoch] at hedited ⊢
  exact untraced_of_disjoint hcollect hdisjoint hrepo hchanged hedited

end Absorbed

/-! ### A small absorption -/

/-- A repository with three commits. -/
noncomputable def sampleAbsorbEnv : AbsorbEnv where
  commits := sampleThreeCommits
  ancestry := sampleAncestry
  probes := sampleProbes
  walkCommits _ _ := some 1
  rebaseSiblingForAbsorb s _ _ := .ok s

/-- One workspace that is on its base commit. -/
def sampleAbsorbWorld (base : GitOid) (n : Nat) : AbsorbWorld where
  epoch := sampleBlob 2
  target := ⟨"default", none, sampleWorktree (sampleBlob 2) 10⟩
  siblings := [⟨"feature", some base, sampleWorktree base n⟩]

theorem computeFfChangedPaths_sample :
    computeFfChangedPaths (sampleThreeCommits.treeOf (sampleBlob 2))
      (sampleThreeCommits.treeOf (sampleBlob 3)) = ∅ := by
  decide +kernel

theorem isStrictAncestor_sample :
    isStrictAncestor sampleAbsorbEnv (sampleBlob 2) (sampleBlob 3) = true := by
  rw [isStrictAncestor, Bool.and_eq_true, decide_eq_true_iff]
  refine ⟨by decide, sampleAncestry.isAncestor_iff.mpr (NodeStore.ParentOf.isAncestor ?_)⟩
  exact NodeStore.adds_add.parentOf_self List.mem_cons_self

theorem reconcile_sample {base : GitOid} {n : Nat}
    (hbase : sampleThreeCommits.IsAncestor base (sampleBlob 2))
    (hclean : computePatchset sampleAbsorbEnv.probes (sampleThreeCommits.treeOf base)
      (sampleWorktree base n) = .ok []) :
    ∃ w', reconcileEpochWithBranch sampleAbsorbEnv true (sampleBlob 3) (sampleAbsorbWorld base n) =
        .ok (.absorbed (sampleBlob 3) 1, w') ∧
      w'.siblings = [⟨"feature", some (sampleBlob 3),
        syncFfPathsInWorktree sampleAbsorbEnv (sampleBlob 3) ∅ (sampleWorktree base n)⟩] := by
  have hheal : healEpochRef sampleAbsorbEnv.ancestry (some (sampleBlob 2))
      ⟨"feature", some base, sampleWorktree base n⟩ = ⟨"feature", some base, sampleWorktree base n⟩ :=
    healEpochRef_eq rfl rfl
  have hfollow : followBranch sampleAbsorbEnv (sampleBlob 2) (sampleBlob 3) ∅
      ⟨"feature", some base, sampleWorktree base n⟩ = .ok ⟨"feature", some (sampleBlob 3),
        syncFfPathsInWorktree sampleAbsorbEnv (sampleBlob 3) ∅ (sampleWorktree base n)⟩ :=
    followBranch_eq rfl rfl hbase isStrictAncestor_sample ∅
  have hplan : siblingPlan sampleAbsorbEnv (sampleBlob 2) (sampleBlob 3)
      ⟨"feature", some base, sampleWorktree base n⟩ ≠ .blocked := by
    intro hblocked
    rw [followBranch, hblocked] at hfollow
    exact absurd hfollow throw_ne_ok
  have hcollect : collectTouchedWorkspace sampleAbsorbEnv
      ⟨"feature", some base, sampleWorktree base n⟩ = .ok ⟨"feature", ∅⟩ := by
    have hclean' : computePatchset sampleAbsorbEnv.probes (sampleAbsorbEnv.commits.treeOf base)
        (sampleWorktree base n) = .ok [] := hclean
    simp only [collectTouchedWorkspace, Workspace.baseEpoch, Option.getD_some, hclean']
    rfl
  have hchanged : computeFfChangedPaths (sampleAbsorbEnv.commits.treeOf (sampleBlob 2))
      (sampleAbsorbEnv.commits.treeOf (sampleBlob 3)) = ∅ := computeFfChangedPaths_sample
  refine ⟨⟨sampleBlob 3, ⟨"default", some (sampleBlob 3), sampleWorktree (sampleBlob 2) 10⟩, _⟩,
    ?_, rfl⟩
  have hne : (sampleAbsorbWorld base n).epoch ≠ sampleBlob 3 :=
    show sampleBlob 2 ≠ sampleBlob 3 by decide
  rw [reconcileEpochWithBranch, if_neg hne,
    if_neg (by simp [sampleAbsorbWorld, isStrictAncestor_sample])]
  simp only [absorbFf, sampleAbsorbWorld, List.map_cons, List.map_nil, hheal, hchanged,
    List.mapM_cons, List.mapM_nil, hcollect, hfollow, evaluateFfSafety, true_or, if_true,
    List.filter_cons, hplan, decide_false, List.filter_nil]
  rfl

theorem writesSucceed_sample (disk : Disk) :
    WritesSucceed (sampleThreeCommits.treeOf (sampleBlob 3)) (inOrderOf id Function.injective_id
      (computeFfChangedPaths (sampleThreeCommits.treeOf (sampleBlob 2))
        (sampleThreeCommits.treeOf (sampleBlob 3)))) disk := by
  rw [computeFfChangedPaths_sample]
  trivial

theorem isAncestor_sample : sampleThreeCommits.IsAncestor (sampleBlob 1) (sampleBlob 2) :=
  NodeStore.adds_add.isAncestor
    (NodeStore.adds_add.parentOf_self List.mem_cons_self : sampleCommits.ParentOf _ _).isAncestor

/-- A clean workspace that lags behind the epoch is on the branch afterwards, but has its old
file. -/
theorem absorb_reverts_lagging : ∃ w', reconcileEpochWithBranch sampleAbsorbEnv true (sampleBlob 3)
      (sampleAbsorbWorld (sampleBlob 1) 0) = .ok (.absorbed (sampleBlob 3) 1, w') ∧
    ¬ List.Forall₂ (fun s s' => ∀ base, s.epochRef = some base → s.worktree.head = base →
      sampleAbsorbEnv.commits.IsAncestor base (sampleBlob 2) →
      WritesSucceed (sampleAbsorbEnv.commits.treeOf (sampleBlob 3)) (inOrderOf id
        Function.injective_id (computeFfChangedPaths (sampleAbsorbEnv.commits.treeOf (sampleBlob 2))
          (sampleAbsorbEnv.commits.treeOf (sampleBlob 3)))) s.worktree.disk →
      AbsorbedRightly sampleAbsorbEnv base (sampleBlob 3) s.worktree s'.worktree)
      (sampleAbsorbWorld (sampleBlob 1) 0).siblings w'.siblings := by
  have hclean : computePatchset sampleAbsorbEnv.probes (sampleThreeCommits.treeOf (sampleBlob 1))
      (sampleWorktree (sampleBlob 1) 0) = .ok [] := by decide +kernel
  obtain ⟨w', hrun, hsiblings⟩ := reconcile_sample isAncestor_sample hclean
  refine ⟨w', hrun, fun hall => ?_⟩
  rw [hsiblings] at hall
  have hfiles := ((List.forall₂_cons.mp hall).1 _ rfl rfl isAncestor_sample
    (writesSucceed_sample _)).files samplePath
  have hdisk : (sampleWorktree (sampleBlob 1) 0).disk.entryAt samplePath =
      some ⟨.blob, sampleBlob 0⟩ := by decide +kernel
  have hbase : (sampleThreeCommits.treeOf (sampleBlob 1)).lookup samplePath =
      some ⟨.blob, sampleBlob 0⟩ := by decide +kernel
  have hbranch : (sampleThreeCommits.treeOf (sampleBlob 3)).lookup samplePath =
      some ⟨.blob, sampleBlob 10⟩ := by decide +kernel
  have hfiles : (sampleWorktree (sampleBlob 1) 0).disk.entryAt samplePath =
      if (sampleWorktree (sampleBlob 1) 0).disk.entryAt samplePath =
          (sampleThreeCommits.treeOf (sampleBlob 1)).lookup samplePath
        then (sampleThreeCommits.treeOf (sampleBlob 3)).lookup samplePath
        else (sampleWorktree (sampleBlob 1) 0).disk.entryAt samplePath := hfiles
  rw [hdisk, hbase, if_pos rfl, hbranch] at hfiles
  exact absurd hfiles (by decide)

/-- A workspace that is on the epoch follows cleanly. -/
theorem reconcile_absorbedRightly_current :
    ∃ w', reconcileEpochWithBranch sampleAbsorbEnv true (sampleBlob 3)
        (sampleAbsorbWorld (sampleBlob 2) 10) = .ok (.absorbed (sampleBlob 3) 1, w') ∧
      List.Forall₂ (fun s s' => AbsorbedRightly sampleAbsorbEnv (sampleBlob 2) (sampleBlob 3)
        s.worktree s'.worktree) (sampleAbsorbWorld (sampleBlob 2) 10).siblings w'.siblings := by
  have hclean : computePatchset sampleAbsorbEnv.probes (sampleThreeCommits.treeOf (sampleBlob 2))
      (sampleWorktree (sampleBlob 2) 10) = .ok [] := by decide +kernel
  obtain ⟨w', hrun, hsiblings⟩ := reconcile_sample (.refl _) hclean
  have hall := reconcile_absorbedRightly_iff hrun
  refine ⟨w', hrun, ?_⟩
  rw [hsiblings] at hall ⊢
  have hsame (p : Path) : (sampleAbsorbEnv.commits.treeOf (sampleBlob 2)).lookup p =
      (sampleAbsorbEnv.commits.treeOf (sampleBlob 3)).lookup p :=
    congrArg (Finmap.lookup p) (show sampleThreeCommits.treeOf (sampleBlob 2) =
      sampleThreeCommits.treeOf (sampleBlob 3) by decide +kernel)
  refine .cons (((List.forall₂_cons.mp hall).1 _ rfl rfl (.refl _) (writesSucceed_sample _)).mpr
    ⟨fun _ _ _ => rfl, fun p hne => absurd (hsame p) hne, fun p hne => absurd (hsame p) hne⟩) .nil

end Maw
