import Maw.Core.Repo

/-!
# Replay of uncommitted edits after a merge

A merge into a workspace with uncommitted edits takes a snapshot of them, checks the merge out
and replays the snapshot. The snapshot is applied by overwriting; the files that the merge changed
as well are remembered before that and are merged with the edits afterwards, path by path. Paths
that are left in conflict are reported.

Only files that are there after the checkout are remembered, files are read and written through
symbolic links, and the merge of contents does not look whether they are text: a path that the
merge deleted, a link or a binary file that both sides changed is not reported.

## Main definitions

* `FileEntry`, `Filesystem`, `ReplayEnv` — files, and what the replay is given.
* `ReplayEnv.replaySnapshotWithMergeProtection` — the replay.
* `ReplayEnv.Protected`, `ReplayEnv.ReplayProtects` — no edit is lost silently.
* `ReplayEnv.Handled` — when a path is handled rightly.

## Main results

* `ReplayEnv.foldl_replayPath` — what the merges after the snapshot leave.
* `ReplayEnv.replay_protects_iff` — the replay protects the edits if and only if all paths are handled.
* `replay_keeps_deleted_silently` — a deletion by the merge is undone without a report.
-/

namespace Maw

/-- A file, or a symbolic link with the text that it holds. -/
inductive FileEntry
  | regular (content : Bytes)
  | symlink (target : Bytes)
  deriving DecidableEq, Repr

namespace FileEntry

/-- The content of a file, or the text of a link. -/
def content : FileEntry → Bytes
  | regular content => content
  | symlink target => target

def isSymlink : FileEntry → Bool
  | regular _ => false
  | symlink _ => true

end FileEntry

inductive FsNode
  | entry (e : FileEntry)
  | directory
  deriving DecidableEq, Repr

/-- A path of the worktree, or a place outside of it. -/
inductive Place
  | inside (p : Path)
  | outside (name : List Char)
  deriving DecidableEq, Repr

abbrev Filesystem := Place → Option FsNode

/-- A path that is left in conflict. -/
structure WorkingCopyConflict where
  path : Path
  conflictType : String
  deriving DecidableEq, Repr

inductive SnapshotReplayError
  | stashApply
  | noConflictsDetected
  deriving DecidableEq, Repr

/-- What a replay is given: the versions of each path, what git and the libraries do, and the
configuration. The snapshot was taken on top of the anchor. -/
structure ReplayEnv where
  repo : Repo
  anchor : Path → Option FileEntry
  merged : Path → Option FileEntry
  snapshot : Path → Option FileEntry
  /-- The paths that `git stash show` names. -/
  stashChangedPaths : List Path
  resolvedPaths : List Path
  /-- The files after an attempt to apply the snapshot, and whether it succeeded. -/
  stashApply : Filesystem → Filesystem × Bool
  /-- The paths that git reports as unmerged. -/
  unmerged : List WorkingCopyConflict
  /-- Where a link at a place leads. -/
  links : Place → Bytes → Option Place
  anchorDriver : Path → Option String
  targetDriver : Path → Option String
  strict : Bool
  checkSizeDelta : (base ours theirs merged : Bytes) → Bool
  sourceWorkspaceNames : List String
  targetWorkspaceName : String

/-- The resolution of a merge driver; `none` stands for no text merge. -/
def resolutionForDriver : Option String → Option ConflictResolution
  | none => some .diff3
  | some driver =>
    if driver = "union" then some .union
    else if driver = "ours" then some .ours
    else if driver = "binary" then none
    else some .diff3

/-- A text with a line break at its end. -/
def endLine (bytes : Bytes) : Bytes := if bytes.getLast? = some 0x0A then bytes else bytes ++ [0x0A]

/-- The three versions between conflict markers. -/
def writeDiff3Markers (base mergeContent localContent : Bytes) (mergeLabel localLabel : String) :
    Bytes :=
  ("<<<<<<< " ++ mergeLabel ++ "\n").toUTF8.toList ++ endLine mergeContent ++
    "||||||| base\n".toUTF8.toList ++ endLine base ++ "=======\n".toUTF8.toList ++
      endLine localContent ++ (">>>>>>> " ++ localLabel ++ "\n").toUTF8.toList

namespace ReplayEnv

variable (env : ReplayEnv)

/-! ### Files -/

/-- Follow symbolic links, so many at most. -/
def follow (fs : Filesystem) : ℕ → Place → Option Place
  | 0, _ => none
  | n + 1, place =>
    match fs place with
    | some (.entry (.symlink target)) => (env.links place target).bind (follow fs n)
    | _ => some place

/-- Read a file; what is no file is not read. -/
def readFile (fs : Filesystem) (place : Place) : Option Bytes := do
  match fs (← env.follow fs 41 place) with
  | some (.entry (.regular content)) => some content
  | _ => none

/-- Write a file, or create it. -/
def writeFile (fs : Filesystem) (place : Place) (content : Bytes) : Option Filesystem := do
  let final ← env.follow fs 41 place
  match fs final with
  | some .directory => none
  | _ => some (Function.update fs final (some (.entry (.regular content))))

/-- Write a file; an error is passed over. -/
def tryWriteFile (fs : Filesystem) (place : Place) (content : Bytes) : Filesystem :=
  (env.writeFile fs place content).getD fs

/-! ### The replay -/

def mergeLabel : String :=
  match env.sourceWorkspaceNames with
  | [name] => name ++ " (merged workspace)"
  | names => ", ".intercalate names ++ " (merged workspaces)"

def localLabel : String := env.targetWorkspaceName ++ " (local edits)"

def driver (p : Path) : Option String := (env.anchorDriver p).or (env.targetDriver p)

def baseContent (p : Path) : Bytes := ((env.anchor p).map FileEntry.content).getD []

/-- The merge of two contents under the driver of a path, and whether it is in conflict. -/
def mergeTextThreeWay (p : Path) (ours theirs : Bytes) : Bytes × Bool :=
  match resolutionForDriver (env.driver p) with
  | none => (ours, true)
  | some resolution =>
    match mergeTextWithStyle env.repo (env.baseContent p) ours theirs env.mergeLabel "base"
        env.localLabel resolution with
    | .clean out => (out, false)
    | .conflict out => (out, true)

def markers (p : Path) (mergeContent localContent : Bytes) : Bytes :=
  writeDiff3Markers (env.baseContent p) mergeContent localContent env.mergeLabel env.localLabel

/-- Whether the merge changed the content of a path. -/
def committedContentChanged (p : Path) : Bool :=
  (env.anchor p).map FileEntry.content ≠ (env.merged p).map FileEntry.content

/-- The paths of the snapshot that the merge resolved or changed. -/
def overlapping : List Path :=
  env.stashChangedPaths.filter fun p => p ∈ env.resolvedPaths || env.committedContentChanged p

/-- Apply the snapshot. -/
def replaySnapshot (fs : Filesystem) :
    Except SnapshotReplayError (Filesystem × List WorkingCopyConflict) :=
  match env.stashApply fs with
  | (fs', true) => .ok (fs', [])
  | (fs', false) => if env.unmerged = [] then .error .noConflictsDetected else .ok (fs', env.unmerged)

/-- The overlapping files that are there after the checkout. -/
def mergeVersions (fs : Filesystem) : List (Path × Bytes) :=
  env.overlapping.filterMap fun p => (env.readFile fs (.inside p)).map fun content => (p, content)

/-- Merge one file with the edits of the snapshot. -/
def replayPath (s : Filesystem × List WorkingCopyConflict) (version : Path × Bytes) :
    Filesystem × List WorkingCopyConflict :=
  match env.snapshot version.1 with
  | none =>
    (env.tryWriteFile s.1 (.inside version.1) (env.markers version.1 version.2 []),
      s.2 ++ [⟨version.1, "delete_mod_conflict"⟩])
  | some stash =>
    if stash.content = version.2 then
      (env.tryWriteFile s.1 (.inside version.1) version.2, s.2)
    else
      match env.mergeTextThreeWay version.1 version.2 stash.content with
      | (merged, false) =>
        if !env.checkSizeDelta (env.baseContent version.1) version.2 stash.content merged &&
            env.strict then
          (env.tryWriteFile s.1 (.inside version.1)
              (env.markers version.1 version.2 stash.content),
            s.2 ++ [⟨version.1, "sanity-flag"⟩])
        else (env.tryWriteFile s.1 (.inside version.1) merged, s.2)
      | (marked, true) =>
        match env.writeFile s.1 (.inside version.1) marked with
        | some fs => (fs, s.2 ++ [⟨version.1, "content"⟩])
        | none => s

/-- Apply the snapshot and merge the overlapping files with it. -/
def replaySnapshotWithMergeProtection (fs : Filesystem) :
    Except SnapshotReplayError (Filesystem × List WorkingCopyConflict) :=
  if env.overlapping = [] then env.replaySnapshot fs
  else
    match env.stashApply fs with
    | (_, false) => .error .stashApply
    | (fs', true) =>
      let result := (env.mergeVersions fs).foldl env.replayPath (fs', [])
      .ok (result.1, result.2 ++ env.unmerged.filter fun c => c.path ∉ env.overlapping)

/-! ### What a replay is to keep -/

/-- The snapshot changed the path. -/
def Changed (p : Path) : Prop := env.snapshot p ≠ env.anchor p

/-- The path is as in the snapshot. -/
def HoldsLocal (fs : Filesystem) (p : Path) : Prop :=
  ∀ e, fs (.inside p) = some (.entry e) ↔ env.snapshot p = some e

/-- All versions of the path are text files. -/
def IsText (p : Path) : Prop :=
  (∀ e, env.anchor p = some e → e.isSymlink = false ∧ looksText e.content = true) ∧
    ∃ ours theirs, env.merged p = some (.regular ours) ∧ env.snapshot p = some (.regular theirs) ∧
      looksText ours = true ∧ looksText theirs = true

/-- The path has the clean merge of two texts. -/
def HoldsMerge (fs : Filesystem) (p : Path) : Prop :=
  env.IsText p ∧ ∃ ours theirs out, env.merged p = some (.regular ours) ∧
    env.snapshot p = some (.regular theirs) ∧
      env.mergeTextThreeWay p ours theirs = (out, false) ∧
        fs (.inside p) = some (.entry (.regular out))

/-- The edit of the path is kept, merged or reported. -/
def Protected (fs : Filesystem) (conflicts : List WorkingCopyConflict) (p : Path) : Prop :=
  (∃ c ∈ conflicts, c.path = p) ∨
    ((env.merged p = env.anchor p ∨ env.merged p = env.snapshot p) ∧ env.HoldsLocal fs p) ∨
      env.merged p ≠ env.anchor p ∧ env.HoldsMerge fs p

/-- No edit is lost silently, and no other file is modified. -/
def ReplayProtects (fs fs' : Filesystem) (conflicts : List WorkingCopyConflict) : Prop :=
  (∀ p, env.Changed p → env.Protected fs' conflicts p) ∧
    ∀ place, (∀ p, env.Changed p → place ≠ .inside p) →
      ∀ e, fs' place = some (.entry e) ↔ fs place = some (.entry e)

/-- What is relied on of the checkout and of git: the changed paths are as the merge has them,
only changed paths are named, the snapshot is applied to the changed paths and to no others, and
no path is unmerged. -/
structure Relies (fs : Filesystem) : Prop where
  checkedOut : ∀ p, env.Changed p → ∀ e, fs (.inside p) = some (.entry e) ↔ env.merged p = some e
  named : ∀ p ∈ env.stashChangedPaths, env.Changed p
  applied : ∀ fs', env.stashApply fs = (fs', true) → (∀ p, env.Changed p → env.HoldsLocal fs' p) ∧
    ∀ place, (∀ p, env.Changed p → place ≠ .inside p) →
      ∀ e, fs' place = some (.entry e) ↔ fs place = some (.entry e)
  unmerged : env.unmerged = []

/-- The content of a path that is remembered. -/
def remembered (fs : Filesystem) (p : Path) : Option Bytes :=
  if p ∈ env.overlapping then env.readFile fs (.inside p) else none

/-- No remembered path is a link in the snapshot. -/
def NoLinks (fs : Filesystem) : Prop :=
  ∀ p target, env.snapshot p = some (.symlink target) → env.remembered fs p = none

/-- The result of a merge that is not reported. -/
def quietMerge (p : Path) (ours theirs : Bytes) : Option Bytes :=
  match env.mergeTextThreeWay p ours theirs with
  | (merged, false) =>
    if !env.checkSizeDelta (env.baseContent p) ours theirs merged && env.strict then none
    else some merged
  | (_, true) => none

/-- The edit of a text has all that the merge changed. -/
def HasMerge (p : Path) : Prop :=
  env.IsText p ∧ ∃ ours theirs, env.merged p = some (.regular ours) ∧
    env.snapshot p = some (.regular theirs) ∧ env.mergeTextThreeWay p ours theirs = (theirs, false)

/-- The path is handled rightly. A remembered path is, if the user deleted it, or if its merge is
reported or is that of texts; any path is, if only one side changed it or both did alike. -/
def Handled (fs : Filesystem) (p : Path) : Prop :=
  match env.remembered fs p, env.snapshot p with
  | none, _ => env.merged p = env.anchor p ∨ env.merged p = env.snapshot p ∨ env.HasMerge p
  | some _, none => True
  | some content, some stash =>
    if stash.content = content then env.merged p = env.anchor p ∨ env.merged p = env.snapshot p
    else ∀ out, env.quietMerge p content stash.content = some out →
      if env.merged p = env.anchor p then out = stash.content else env.IsText p

/-! ### Files that are no links -/

section Files

variable {env} {fs fs' : Filesystem} {place : Place} {content : Bytes}

theorem follow_of_not_link (h : ∀ target, fs place ≠ some (.entry (.symlink target))) (n : ℕ) :
    env.follow fs (n + 1) place = some place := by
  rw [follow]
  split
  · next target htarget => exact absurd htarget (h target)
  · rfl

theorem readFile_of_not_link (h : ∀ target, fs place ≠ some (.entry (.symlink target))) :
    env.readFile fs place = some content ↔ fs place = some (.entry (.regular content)) := by
  unfold readFile
  rw [follow_of_not_link h]
  simp only [Option.bind_eq_bind, Option.bind_some]
  split
  · next content' hcontent => simp [hcontent]
  · next hne =>
    refine iff_of_false nofun fun hcontent => ?_
    exact hne content hcontent

theorem tryWriteFile_of_ne (h : ∀ target, fs place ≠ some (.entry (.symlink target)))
    {other : Place} (hother : other ≠ place) : env.tryWriteFile fs place content other = fs other := by
  unfold tryWriteFile writeFile
  rw [follow_of_not_link h]
  simp only [Option.bind_eq_bind, Option.bind_some]
  split
  · rfl
  · exact Function.update_of_ne hother ..

theorem writeFile_eq_some (h : ∀ target, fs place ≠ some (.entry (.symlink target)))
    (hdir : fs place ≠ some .directory) :
    env.writeFile fs place content =
      some (Function.update fs place (some (.entry (.regular content)))) := by
  unfold writeFile
  rw [follow_of_not_link h]
  simp only [Option.bind_eq_bind, Option.bind_some]

end Files

/-! ### The merges after the snapshot -/

section Merges

variable {env} {fs : Filesystem} {paths : List Path} {version : Path × Bytes}
  {s : Filesystem × List WorkingCopyConflict}

/-- What a remembered file becomes, and how it is reported. -/
def verdict (env : ReplayEnv) (version : Path × Bytes) : Bytes × Option String :=
  match env.snapshot version.1 with
  | none => (env.markers version.1 version.2 [], some "delete_mod_conflict")
  | some stash =>
    if stash.content = version.2 then (version.2, none)
    else
      match env.mergeTextThreeWay version.1 version.2 stash.content with
      | (merged, false) =>
        if !env.checkSizeDelta (env.baseContent version.1) version.2 stash.content merged &&
            env.strict then (env.markers version.1 version.2 stash.content, some "sanity-flag")
        else (merged, none)
      | (marked, true) => (marked, some "content")

theorem mergeTextThreeWay_of_quietMerge {p : Path} {ours theirs out : Bytes}
    (h : env.quietMerge p ours theirs = some out) :
    env.mergeTextThreeWay p ours theirs = (out, false) := by
  unfold quietMerge at h
  split at h
  · next merged hmerge =>
    split_ifs at h
    rw [hmerge, Option.some_inj.mp h]
  · simp at h

theorem verdict_of_quietMerge_eq_some {p : Path} {stash : FileEntry} {content out : Bytes}
    (hsnapshot : env.snapshot p = some stash) (hne : stash.content ≠ content)
    (h : env.quietMerge p content stash.content = some out) :
    env.verdict (p, content) = (out, none) := by
  have hmerge := mergeTextThreeWay_of_quietMerge h
  simp only [quietMerge, hmerge] at h
  split_ifs at h with hflag
  simp only [verdict, hsnapshot, if_neg hne, hmerge, if_neg hflag]

theorem verdict_of_quietMerge_eq_none {p : Path} {stash : FileEntry} {content : Bytes}
    (hsnapshot : env.snapshot p = some stash) (hne : stash.content ≠ content)
    (h : env.quietMerge p content stash.content = none) :
    ∃ t, (env.verdict (p, content)).2 = some t := by
  simp only [verdict, hsnapshot, if_neg hne]
  cases hmerge : env.mergeTextThreeWay p content stash.content with
  | mk merged conflict =>
    cases conflict with
    | true => exact ⟨_, rfl⟩
    | false =>
      simp only [quietMerge, hmerge] at h
      split_ifs at h with hflag
      exact ⟨"sanity-flag", by simp only [if_pos hflag]⟩

/-- The given paths are no links, and those of the snapshot are files. -/
structure Ready (env : ReplayEnv) (paths : List Path) (fs : Filesystem) : Prop where
  notLink : ∀ p ∈ paths, ∀ target, fs (.inside p) ≠ some (.entry (.symlink target))
  isFile : ∀ p ∈ paths, env.snapshot p ≠ none → fs (.inside p) ≠ some .directory

theorem replayPath_eq (hready : env.Ready paths s.1) (hp : version.1 ∈ paths) :
    env.replayPath s version =
      (env.tryWriteFile s.1 (.inside version.1) (env.verdict version).1,
        s.2 ++ (env.verdict version).2.toList.map fun t => ⟨version.1, t⟩) := by
  unfold replayPath verdict
  cases hsnapshot : env.snapshot version.1 with
  | none => rfl
  | some stash =>
    simp only
    split_ifs with heq
    · simp
    · cases hmerge : env.mergeTextThreeWay version.1 version.2 stash.content with
      | mk merged conflict =>
        cases conflict with
        | false =>
          simp only
          split_ifs <;> simp
        | true =>
          -- Only the write of a conflict is looked at before the conflict is reported.
          have hwrite : env.writeFile s.1 (.inside version.1) merged = some _ :=
            writeFile_eq_some (hready.notLink _ hp) (hready.isFile _ hp (by simp [hsnapshot]))
          simp [tryWriteFile, hwrite]

theorem ready_tryWriteFile (hready : env.Ready paths fs) {p : Path} (hp : p ∈ paths)
    (content : Bytes) : env.Ready paths (env.tryWriteFile fs (.inside p) content) := by
  have hself : env.tryWriteFile fs (.inside p) content (.inside p) = fs (.inside p) ∨
      env.tryWriteFile fs (.inside p) content (.inside p) = some (.entry (.regular content)) := by
    unfold tryWriteFile writeFile
    rw [follow_of_not_link (hready.notLink p hp)]
    simp only [Option.bind_eq_bind, Option.bind_some]
    split
    · exact .inl rfl
    · exact .inr (Function.update_self ..)
  have hother (q : Path) (hq : q ≠ p) :
      env.tryWriteFile fs (.inside p) content (.inside q) = fs (.inside q) :=
    tryWriteFile_of_ne (hready.notLink p hp) (by simpa using hq)
  constructor
  · intro q hq target
    by_cases heq : q = p
    · subst heq
      rcases hself with h | h
      · exact h ▸ hready.notLink q hq target
      · simp [h]
    · exact hother q heq ▸ hready.notLink q hq target
  · intro q hq hsnapshot
    by_cases heq : q = p
    · subst heq
      rcases hself with h | h
      · exact h ▸ hready.isFile q hq hsnapshot
      · simp [h]
    · exact hother q heq ▸ hready.isFile q hq hsnapshot

/-- What the merges after the snapshot leave: each remembered file that the snapshot has becomes
what its own merge gives, no other place changes, and the reports are those of the merges. -/
theorem foldl_replayPath (hready : env.Ready paths s.1) (versions : List (Path × Bytes))
    (hversions : ∀ v ∈ versions, v.1 ∈ paths)
    (hunique : ∀ v ∈ versions, ∀ v' ∈ versions, v.1 = v'.1 → v = v') :
    (∀ v ∈ versions, env.snapshot v.1 ≠ none →
        (versions.foldl env.replayPath s).1 (.inside v.1) =
          some (.entry (.regular (env.verdict v).1))) ∧
      (∀ place, (∀ v ∈ versions, place ≠ .inside v.1) →
        (versions.foldl env.replayPath s).1 place = s.1 place) ∧
      (∀ c, c ∈ (versions.foldl env.replayPath s).2 ↔ c ∈ s.2 ∨ ∃ v ∈ versions, c.path = v.1 ∧
        (env.verdict v).2 = some c.conflictType) ∧
      env.Ready paths (versions.foldl env.replayPath s).1 := by
  induction versions using List.reverseRecOn with
  | nil => exact ⟨nofun, fun _ _ => rfl, fun c => by simp, hready⟩
  | append_singleton versions v ih =>
    obtain ⟨hself, hother, hreports, hready'⟩ := ih
      (fun w hw => hversions w (List.mem_append_left _ hw))
      fun w hw w' hw' => hunique w (List.mem_append_left _ hw) w' (List.mem_append_left _ hw')
    have hvmem : v ∈ versions ++ [v] := List.mem_append_right _ List.mem_cons_self
    have hv : v.1 ∈ paths := hversions v hvmem
    have hlink := hready'.notLink v.1 hv
    rw [List.foldl_append, List.foldl_cons, List.foldl_nil, replayPath_eq hready' hv]
    dsimp only
    refine ⟨?_, ?_, ?_, ready_tryWriteFile hready' hv _⟩
    · intro w hw hsnapshot
      by_cases heq : w.1 = v.1
      · obtain rfl : w = v := hunique w hw v hvmem heq
        rw [tryWriteFile, writeFile_eq_some hlink (hready'.isFile _ hv hsnapshot)]
        exact Function.update_self ..
      · have hne : Place.inside w.1 ≠ .inside v.1 := by simpa using heq
        rw [tryWriteFile_of_ne hlink hne]
        refine hself w ?_ hsnapshot
        rcases List.mem_append.mp hw with hw | hw
        · exact hw
        · exact absurd (congrArg Prod.fst (List.mem_singleton.mp hw)) heq
    · intro place hplace
      rw [tryWriteFile_of_ne hlink (hplace v hvmem)]
      exact hother place fun w hw => hplace w (List.mem_append_left _ hw)
    · intro c
      have hlast : c ∈ ((env.verdict v).2.toList.map fun t => (⟨v.1, t⟩ : WorkingCopyConflict)) ↔
          c.path = v.1 ∧ (env.verdict v).2 = some c.conflictType := by
        cases c
        cases hverdict : (env.verdict v).2 with
        | none => simp
        | some t => simp [eq_comm]
      rw [List.mem_append, hreports, hlast]
      simp only [List.mem_append, List.mem_singleton, or_assoc, or_and_right, exists_or,
        exists_eq_left]

end Merges

/-! ### The remembered files -/

section Remembered

variable {env} {fs fs' : Filesystem} {conflicts : List WorkingCopyConflict} {p : Path}
  {content ours theirs : Bytes}

theorem mem_mergeVersions :
    (p, content) ∈ env.mergeVersions fs ↔ env.remembered fs p = some content := by
  unfold mergeVersions remembered
  simp only [List.mem_filterMap, Option.map_eq_some_iff, Prod.mk.injEq]
  constructor
  · rintro ⟨q, hq, content', hread, rfl, rfl⟩
    rw [if_pos hq, hread]
  · intro h
    split_ifs at h with hp
    exact ⟨p, hp, content, h, rfl, rfl⟩

theorem changed_of_remembered (hrel : env.Relies fs) (h : env.remembered fs p = some content) :
    env.Changed p := by
  unfold remembered at h
  split_ifs at h with hp
  exact hrel.named p (List.mem_of_mem_filter hp)

/-- A remembered path that the merge has as a file is remembered with what the merge has. -/
theorem eq_of_remembered (hrel : env.Relies fs) (h : env.remembered fs p = some content)
    (hmerged : env.merged p = some (.regular ours)) : content = ours := by
  have hfs : fs (.inside p) = some (.entry (.regular ours)) :=
    (hrel.checkedOut p (changed_of_remembered hrel h) _).mpr hmerged
  have hread : env.readFile fs (.inside p) = some ours :=
    (readFile_of_not_link (by simp [hfs])).mpr hfs
  unfold remembered at h
  split_ifs at h with hp
  exact Option.some_inj.mp (h.symm.trans hread)

/-- After the snapshot was applied the remembered paths are no links. -/
theorem ready_stashApply (hrel : env.Relies fs) (hlinks : env.NoLinks fs)
    (happly : env.stashApply fs = (fs', true)) :
    env.Ready ((env.mergeVersions fs).map Prod.fst) fs' := by
  have hlocal {q : Path} (hq : q ∈ (env.mergeVersions fs).map Prod.fst) :
      env.HoldsLocal fs' q ∧ env.remembered fs q ≠ none := by
    obtain ⟨v, hv, rfl⟩ := List.mem_map.mp hq
    have hremembered := mem_mergeVersions.mp hv
    exact ⟨(hrel.applied fs' happly).1 _ (changed_of_remembered hrel hremembered),
      by simp [hremembered]⟩
  constructor
  · intro q hq target htarget
    obtain ⟨hholds, hremembered⟩ := hlocal hq
    exact hremembered (hlinks q target ((hholds _).mp htarget))
  · intro q hq hsnapshot hdir
    obtain ⟨e, he⟩ := Option.ne_none_iff_exists'.mp hsnapshot
    have := ((hlocal hq).1 e).mpr he
    simp [hdir] at this

/-- What a replay leaves: a remembered path becomes what its merge gives, all else is as the
snapshot left it, and the reports are those of the merges. -/
theorem replay_spec (hrel : env.Relies fs) (hlinks : env.NoLinks fs)
    (hok : env.replaySnapshotWithMergeProtection fs = .ok (fs', conflicts)) :
    ∃ applied, env.stashApply fs = (applied, true) ∧
      (∀ v, env.remembered fs v.1 = some v.2 → env.snapshot v.1 ≠ none →
        fs' (.inside v.1) = some (.entry (.regular (env.verdict v).1))) ∧
      (∀ place, (∀ p, env.remembered fs p ≠ none → place ≠ .inside p) →
        fs' place = applied place) ∧
      ∀ c, c ∈ conflicts ↔ ∃ content, env.remembered fs c.path = some content ∧
        (env.verdict (c.path, content)).2 = some c.conflictType := by
  unfold replaySnapshotWithMergeProtection at hok
  cases happly : env.stashApply fs with
  | mk applied success =>
    split_ifs at hok with hoverlap
    · have hnone (q : Path) : env.remembered fs q = none := by simp [remembered, hoverlap]
      cases success with
      | false => simp [replaySnapshot, happly, hrel.unmerged] at hok
      | true =>
        obtain ⟨rfl, rfl⟩ : applied = fs' ∧ [] = conflicts := by
          simpa [replaySnapshot, happly] using hok
        exact ⟨applied, rfl, fun v hv => by simp [hnone] at hv, fun _ _ => rfl, by simp [hnone]⟩
    · cases success with
      | false => simp [happly] at hok
      | true =>
        simp only [happly, hrel.unmerged, List.filter_nil, List.append_nil, Except.ok.injEq] at hok
        obtain ⟨hself, hother, hreports, -⟩ :=
          foldl_replayPath (s := (applied, [])) (ready_stashApply hrel hlinks happly)
            (env.mergeVersions fs) (fun v hv => List.mem_map_of_mem hv) <| by
              rintro ⟨q, content⟩ hv ⟨q', content'⟩ hv' rfl
              have := (mem_mergeVersions.mp hv).symm.trans (mem_mergeVersions.mp hv')
              simpa using this
        obtain ⟨rfl, rfl⟩ := Prod.ext_iff.mp hok
        refine ⟨applied, rfl, fun v hv => hself v (mem_mergeVersions.mpr hv), ?_, ?_⟩
        · intro place hplace
          exact hother place fun v hv =>
            hplace v.1 (by simp [mem_mergeVersions.mp hv])
        · intro c
          rw [hreports]
          constructor
          · rintro (h | ⟨⟨q, content⟩, hv, rfl, hverdict⟩)
            · simp at h
            · exact ⟨content, mem_mergeVersions.mp hv, hverdict⟩
          · rintro ⟨content, hremembered, hverdict⟩
            exact .inr ⟨_, mem_mergeVersions.mpr hremembered, rfl, hverdict⟩

/-! ### Which edits are kept -/

/-- A path that is not remembered is as in the snapshot. -/
theorem protected_iff_of_not_remembered (hlocal : env.HoldsLocal fs p)
    (hreported : ∀ c ∈ conflicts, c.path ≠ p) :
    env.Protected fs conflicts p ↔
      env.merged p = env.anchor p ∨ env.merged p = env.snapshot p ∨ env.HasMerge p := by
  have hmerge : env.HoldsMerge fs p ↔ env.HasMerge p := by
    constructor
    · rintro ⟨htext, ours, theirs, out, hours, htheirs, hout, hfs⟩
      obtain rfl : theirs = out := by simpa [htheirs] using (hlocal _).mp hfs
      exact ⟨htext, ours, theirs, hours, htheirs, hout⟩
    · rintro ⟨htext, ours, theirs, hours, htheirs, hout⟩
      exact ⟨htext, ours, theirs, theirs, hours, htheirs, hout, (hlocal _).mpr htheirs⟩
  have hnone : ¬∃ c ∈ conflicts, c.path = p := fun ⟨c, hc, hp⟩ => hreported c hc hp
  unfold Protected
  rw [hmerge, or_iff_right hnone]
  constructor
  · rintro (⟨h | h, -⟩ | ⟨-, h⟩)
    · exact .inl h
    · exact .inr (.inl h)
    · exact .inr (.inr h)
  · by_cases h : env.merged p = env.anchor p
    · exact fun _ => .inl ⟨.inl h, hlocal⟩
    · rintro (h' | h' | h')
      · exact absurd h' h
      · exact .inl ⟨.inr h', hlocal⟩
      · exact .inr ⟨h, h'⟩

/-- A file that is written is as in the snapshot if it was written so. -/
theorem holdsLocal_iff_of_written (hsnapshot : env.snapshot p = some (.regular theirs))
    (hfs : fs (.inside p) = some (.entry (.regular content))) :
    env.HoldsLocal fs p ↔ content = theirs := by
  unfold HoldsLocal
  rw [hsnapshot, hfs]
  constructor
  · intro h
    simpa [eq_comm] using (h (.regular content)).mp rfl
  · rintro rfl e
    simp

/-- A remembered path that equals the edit is protected if the merge did nothing, or the same. -/
theorem protected_iff_of_equal (hreported : ∀ c ∈ conflicts, c.path ≠ p)
    (hsnapshot : env.snapshot p = some (.regular content))
    (hfs : fs (.inside p) = some (.entry (.regular content)))
    (hmerged : ∀ ours, env.merged p = some (.regular ours) → content = ours) :
    env.Protected fs conflicts p ↔
      env.merged p = env.anchor p ∨ env.merged p = env.snapshot p := by
  have hlocal : env.HoldsLocal fs p := (holdsLocal_iff_of_written hsnapshot hfs).mpr rfl
  rw [protected_iff_of_not_remembered hlocal hreported, ← or_assoc]
  refine or_iff_left_of_imp ?_
  rintro ⟨-, ours, -, hours, -, -⟩
  rw [hours, hsnapshot, hmerged ours hours]
  exact .inr rfl

/-- A remembered path with a merge that is not reported is protected if the merge is one of texts,
or gives the edit back. -/
theorem protected_iff_of_merged {out : Bytes} (hreported : ∀ c ∈ conflicts, c.path ≠ p)
    (hsnapshot : env.snapshot p = some (.regular theirs)) (hne : theirs ≠ content)
    (hquiet : env.mergeTextThreeWay p content theirs = (out, false))
    (hfs : fs (.inside p) = some (.entry (.regular out)))
    (hmerged : ∀ ours, env.merged p = some (.regular ours) → content = ours) :
    env.Protected fs conflicts p ↔
      if env.merged p = env.anchor p then out = theirs else env.IsText p := by
  have hnone : ¬∃ c ∈ conflicts, c.path = p := fun ⟨c, hc, hp⟩ => hreported c hc hp
  have hother : env.merged p ≠ env.snapshot p := by
    intro h
    exact hne (hmerged theirs (h.trans hsnapshot)).symm
  have hmerge : env.HoldsMerge fs p ↔ env.IsText p := by
    refine ⟨And.left, fun htext => ⟨htext, ?_⟩⟩
    obtain ⟨-, ours, theirs', hours, htheirs, -, -⟩ := htext
    obtain rfl : content = ours := hmerged ours hours
    exact ⟨content, theirs, out, hours, hsnapshot, hquiet, hfs⟩
  unfold Protected
  rw [hmerge, or_iff_right hnone, or_iff_left hother, holdsLocal_iff_of_written hsnapshot hfs]
  split_ifs with h
  · simp [h]
  · simp [h]

/-- A path is protected after a replay if and only if it is handled rightly. -/
theorem protected_iff (hrel : env.Relies fs) (hlinks : env.NoLinks fs)
    (hok : env.replaySnapshotWithMergeProtection fs = .ok (fs', conflicts))
    (hchanged : env.Changed p) : env.Protected fs' conflicts p ↔ env.Handled fs p := by
  obtain ⟨applied, happly, hself, hother, hreports⟩ := replay_spec hrel hlinks hok
  have hreported {content : Bytes} (hremembered : env.remembered fs p = some content) :
      (∃ c ∈ conflicts, c.path = p) ↔ ∃ t, (env.verdict (p, content)).2 = some t := by
    constructor
    · rintro ⟨c, hc, rfl⟩
      obtain ⟨content', hcontent', hverdict⟩ := (hreports c).mp hc
      obtain rfl : content = content' := by simpa [hremembered] using hcontent'
      exact ⟨_, hverdict⟩
    · rintro ⟨t, ht⟩
      exact ⟨⟨p, t⟩, (hreports _).mpr ⟨content, hremembered, ht⟩, rfl⟩
  have hquiet {content : Bytes} (hremembered : env.remembered fs p = some content)
      (hverdict : (env.verdict (p, content)).2 = none) : ∀ c ∈ conflicts, c.path ≠ p := by
    intro c hc hp
    obtain ⟨t, ht⟩ := (hreported hremembered).mp ⟨c, hc, hp⟩
    simp [hverdict] at ht
  have hours {content : Bytes} (hremembered : env.remembered fs p = some content) (ours : Bytes) :
      env.merged p = some (.regular ours) → content = ours :=
    eq_of_remembered hrel hremembered
  unfold Handled
  cases hremembered : env.remembered fs p with
  | none =>
    have hholds : env.HoldsLocal fs' p := by
      intro e
      rw [hother (.inside p) fun q hq hp => hq (by cases hp; exact hremembered)]
      exact (hrel.applied applied happly).1 p hchanged e
    refine protected_iff_of_not_remembered hholds fun c hc hp => ?_
    obtain ⟨content, hcontent, -⟩ := (hreports c).mp hc
    simp [hp, hremembered] at hcontent
  | some content =>
    cases hsnapshot : env.snapshot p with
    | none =>
      -- The user deleted a file that is still there: this is reported.
      refine iff_of_true (.inl ((hreported hremembered).mpr ⟨"delete_mod_conflict", ?_⟩)) trivial
      simp [verdict, hsnapshot]
    | some stash =>
      cases stash with
      | symlink target => simp [hlinks p target hsnapshot] at hremembered
      | regular theirs =>
        have hfs := hself (p, content) hremembered (by simp [hsnapshot])
        show env.Protected fs' conflicts p ↔
          if theirs = content then env.merged p = env.anchor p ∨ env.merged p = some (.regular theirs)
          else ∀ out, env.quietMerge p content theirs = some out →
            if env.merged p = env.anchor p then out = theirs else env.IsText p
        by_cases heq : theirs = content
        · subst heq
          rw [if_pos rfl]
          have hverdict : env.verdict (p, theirs) = (theirs, none) := by
            simp [verdict, hsnapshot, FileEntry.content]
          rw [hverdict] at hfs
          rw [← hsnapshot]
          exact protected_iff_of_equal (hquiet hremembered (by rw [hverdict])) hsnapshot hfs
            (hours hremembered)
        · rw [if_neg heq]
          cases hmerge : env.quietMerge p content theirs with
          | none =>
            refine iff_of_true (.inl ((hreported hremembered).mpr ?_)) nofun
            exact verdict_of_quietMerge_eq_none hsnapshot heq hmerge
          | some out =>
            have hverdict := verdict_of_quietMerge_eq_some hsnapshot heq hmerge
            rw [hverdict] at hfs
            rw [protected_iff_of_merged (hquiet hremembered (by rw [hverdict])) hsnapshot heq
              (mergeTextThreeWay_of_quietMerge hmerge) hfs (hours hremembered)]
            simp

/-- **Dirty replay protection.** A replay that succeeds without remembered links keeps, merges or
reports every edit if and only if every edited path is handled rightly. -/
theorem replay_protects_iff (hrel : env.Relies fs) (hlinks : env.NoLinks fs)
    (hok : env.replaySnapshotWithMergeProtection fs = .ok (fs', conflicts)) :
    env.ReplayProtects fs fs' conflicts ↔ ∀ p, env.Changed p → env.Handled fs p := by
  obtain ⟨applied, happly, -, hother, -⟩ := replay_spec hrel hlinks hok
  have hframe (place : Place) (hplace : ∀ p, env.Changed p → place ≠ .inside p) (e : FileEntry) :
      fs' place = some (.entry e) ↔ fs place = some (.entry e) := by
    rw [hother place fun p hp => ?_]
    · exact (hrel.applied applied happly).2 place hplace e
    · obtain ⟨content, hcontent⟩ := Option.ne_none_iff_exists'.mp hp
      exact hplace p (changed_of_remembered hrel hcontent)
  constructor
  · rintro ⟨hprotected, -⟩ p hp
    exact (protected_iff hrel hlinks hok hp).mp (hprotected p hp)
  · intro hhandled
    exact ⟨fun p hp => (protected_iff hrel hlinks hok hp).mpr (hhandled p hp), hframe⟩

end Remembered

end ReplayEnv

/-! ### A file that the user edited -/

section Sample

def editedPath : Path := ⟨[.lit "replayed.txt"], by simp⟩

/-- The user edited a file, and the merge made something of it. -/
def sampleReplay (merged : Option FileEntry) : ReplayEnv where
  repo := sampleRepo
  anchor p := if p = editedPath then some (.regular [97]) else none
  merged p := if p = editedPath then merged else none
  snapshot p := if p = editedPath then some (.regular [98]) else none
  stashChangedPaths := [editedPath]
  resolvedPaths := []
  stashApply fs := (Function.update fs (.inside editedPath) (some (.entry (.regular [98]))), true)
  unmerged := []
  links _ _ := none
  anchorDriver _ := none
  targetDriver _ := none
  strict := true
  checkSizeDelta _ _ _ _ := true
  sourceWorkspaceNames := ["alice"]
  targetWorkspaceName := "default"

/-- The checkout of the merge. -/
def sampleCheckout (merged : Option FileEntry) : Filesystem := fun place =>
  if place = .inside editedPath then merged.map .entry else none

private theorem changed_sampleReplay {merged : Option FileEntry} {p : Path} :
    (sampleReplay merged).Changed p ↔ p = editedPath := by
  unfold ReplayEnv.Changed sampleReplay
  by_cases h : p = editedPath <;> simp [h]

private theorem relies_sampleReplay (merged : Option FileEntry) :
    (sampleReplay merged).Relies (sampleCheckout merged) where
  checkedOut p hp e := by
    obtain rfl := changed_sampleReplay.mp hp
    simp [sampleReplay, sampleCheckout]
  named p hp := changed_sampleReplay.mpr (List.mem_singleton.mp hp)
  applied fs' happly := by
    obtain rfl : Function.update (sampleCheckout merged) (.inside editedPath)
        (some (.entry (.regular [98]))) = fs' := congrArg Prod.fst happly
    constructor
    · intro p hp e
      obtain rfl := changed_sampleReplay.mp hp
      simp [sampleReplay]
    · intro place hplace e
      rw [Function.update_of_ne (hplace editedPath (changed_sampleReplay.mpr rfl))]
  unmerged := rfl

private theorem noLinks_sampleReplay (merged : Option FileEntry) :
    (sampleReplay merged).NoLinks (sampleCheckout merged) := by
  intro p target htarget
  by_cases h : p = editedPath <;> simp [sampleReplay, h] at htarget

/-- An edit that is in conflict with the merge is reported. -/
theorem replay_protects_iff_sample : ∃ fs',
    (sampleReplay (some (.regular [99]))).replaySnapshotWithMergeProtection
        (sampleCheckout (some (.regular [99]))) = .ok (fs', [⟨editedPath, "content"⟩]) ∧
      (sampleReplay (some (.regular [99]))).ReplayProtects (sampleCheckout (some (.regular [99])))
        fs' [⟨editedPath, "content"⟩] := by
  refine ⟨_, rfl, (ReplayEnv.replay_protects_iff (relies_sampleReplay _) (noLinks_sampleReplay _)
    rfl).mpr fun p hp => ?_⟩
  obtain rfl := changed_sampleReplay.mp hp
  intro out hout
  cases hout

/-- A file that the merge deleted is there again with the edits, and no conflict is reported. -/
theorem replay_keeps_deleted_silently : ∃ fs',
    (sampleReplay none).replaySnapshotWithMergeProtection (sampleCheckout none) = .ok (fs', []) ∧
      fs' (.inside editedPath) = some (.entry (.regular [98])) ∧
        ¬(sampleReplay none).ReplayProtects (sampleCheckout none) fs' [] := by
  refine ⟨_, rfl, rfl, fun h => ?_⟩
  rcases h.1 editedPath (changed_sampleReplay.mpr rfl) with
    ⟨c, hc, -⟩ | ⟨h | h, -⟩ | ⟨-, -, ours, -, -, h, -⟩
  · simp at hc
  · simp [sampleReplay] at h
  · simp [sampleReplay] at h
  · simp [sampleReplay] at h

end Sample

end Maw
