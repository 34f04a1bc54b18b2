import Maw.Recovery.DestroyRecords
import Maw.Worktree.DirtyReplay

/-!
# Undoing a merge

An undo moves the trunk back to the epoch before a merge, writes the uncommitted edits of the trunk
over the restored files, and restores the sources that the merge destroyed from their latest destroy
records. A redo destroys them again.

Edits are remembered as paths and bytes, which are read and written through symbolic links; modes
are not remembered.

## Main definitions

* `captureTrunkDirty`, `resetTrunkWorktree` — the edits, and the trunk after the undo.
* `restoreSources`, `redestroySources` — the sources after an undo and after a redo.
* `LosesNoWork` — the edits and the sources are all kept.
* `EditsKept`, `SourcesKept`, `CapturesSucceed` — when they are.

## Main results

* `Trunk.restored_iff`, `Sources.restored_iff` — when the trunk and the sources are restored.
* `UndoEnv.losesNoWork_iff` — when no work is lost.
* `not_losesNoWork` — an edit of a mode is lost.
-/

namespace Maw.UndoMerge

/-- A file with its mode, or a symbolic link with its text. -/
inductive FileNode
  | regular (content : Bytes) (executable : Bool)
  | symlink (target : Bytes)
  deriving DecidableEq, Repr

abbrev Files := Place → Option FileNode

/-- The mode of a file that is written over. -/
def isExecutable : Option FileNode → Bool
  | some (.regular _ executable) => executable
  | _ => false

/-! ### The trunk -/

/-- The trunk before an undo: the trees of the two epochs, the files on disk, the paths with a status
and what `git restore` leaves; and how paths lead to places. -/
structure Trunk where
  fromTree : Path → Option FileNode
  toTree : Path → Option FileNode
  index : Path → Option FileNode
  files : Files
  status : Option (List Path)
  status_nodup : ∀ paths, status = some paths → paths.Nodup
  restored : Files
  restored_tree : ∀ p e, toTree p = some e → restored (.inside p) = some e
  restored_tracked : ∀ p, toTree p = none → index p ≠ none → restored (.inside p) = none
  restored_untracked : ∀ p, (∀ q, toTree q ≠ none → q ≠ p ∧ ¬ q.Comparable p) → index p = none →
    restored (.inside p) = files (.inside p)
  restored_outside : ∀ name, restored (.outside name) = files (.outside name)
  /-- The place that a path names; symbolic links above it are followed. -/
  resolve : Files → Path → Option Place
  resolve_plain : ∀ fs p, (∀ q, q.Above p → fs (.inside q) = none) → resolve fs p = some (.inside p)
  /-- Where a link at a place leads. -/
  links : Place → Bytes → Option Place
  isDirectory : Files → Place → Bool
  unreadable : Place → Bool

namespace Trunk

variable (t : Trunk)

/-- Follow symbolic links, so many at most. -/
def follow (fs : Files) : ℕ → Place → Option Place
  | 0, _ => none
  | n + 1, place =>
    match fs place with
    | some (.symlink target) => (t.links place target).bind (follow fs n)
    | _ => some place

/-- The bytes of what is a file, if they can be read. -/
def readFile (fs : Files) (p : Path) : Option Bytes :=
  ((t.resolve fs p).bind (t.follow fs 41)).bind fun final =>
    match fs final with
    | some (.regular content _) => if t.unreadable final then none else some content
    | _ => none

/-- The place that a write to a path writes. -/
def writeTarget (fs : Files) (p : Path) : Option Place :=
  ((t.resolve fs p).bind (t.follow fs 41)).filter fun place => !t.isDirectory fs place

/-- The place of what a removal of a path removes. -/
def removeTarget (fs : Files) (p : Path) : Option Place :=
  (t.resolve fs p).filter fun place => (fs place).isSome

/-- The directories of the tool itself. -/
def isAdmin (p : Path) : Bool :=
  (p.components.head?.map Component.text).any fun first =>
    first = ".maw" || first = "repo.git" || first = ".manifold" || first = ".git"

/-- The paths that are remembered. -/
def dirtyPaths : List Path := (t.status.getD []).filter fun p => !isAdmin p

/-- The edits: the bytes of the files, and nothing for what is no file. -/
def captureTrunkDirty : List (Path × Option Bytes) :=
  t.dirtyPaths.map fun p => (p, t.readFile t.files p)

/-- Write one edit; with the place that is written or removed. -/
def reapply (fs : Files) (edit : Path × Option Bytes) : Option (Files × Option Place) :=
  match edit.2 with
  | some content => (t.writeTarget fs edit.1).map fun place =>
      (Function.update fs place (some (.regular content (isExecutable (fs place)))), some place)
  | none =>
    match t.removeTarget fs edit.1 with
    | some place => some (Function.update fs place none, some place)
    | none => some (fs, none)

/-- Write the edits in their order; with the place of each. -/
def reapplyAll (fs : Files) : List (Path × Option Bytes) → Option (Files × List (Path × Place))
  | [] => some (fs, [])
  | edit :: edits => do
    let (fs', place) ← t.reapply fs edit
    let (final, writes) ← reapplyAll fs' edits
    return (final, (place.toList.map fun place => (edit.1, place)) ++ writes)

/-- The trunk after the undo. -/
def resetTrunkWorktree : Option (Files × List (Path × Place)) :=
  t.reapplyAll t.restored t.captureTrunkDirty

/-- The tree of the epoch with the uncommitted edits over it. -/
def expected (p : Path) : Option FileNode :=
  if t.files (.inside p) ≠ t.fromTree p then t.files (.inside p) else t.toTree p

/-- The trunk is restored with its edits, and each edit is written at its own path. -/
def Restored : Option (Files × List (Path × Place)) → Prop
  | none => False
  | some (fs, writes) => (∀ p, fs (.inside p) = t.expected p) ∧
      (∀ name, fs (.outside name) = t.files (.outside name)) ∧
        ∀ write ∈ writes, write.2 = .inside write.1

/-! ### When the edits are kept -/

/-- The trunk when some edits are written. -/
def stateAfter (done : List Path) : Files
  | .inside p => if p ∈ done then t.expected p else t.restored (.inside p)
  | .outside name => t.restored (.outside name)

/-- An edit is written at its own path, with the mode of what is there, or removed there; and this is
what is expected. -/
def OwnPlace (fs : Files) (p : Path) : Option Bytes → Prop
  | some content => t.writeTarget fs p = some (.inside p) ∧
      t.expected p = some (.regular content (isExecutable (t.restored (.inside p))))
  | none => (t.removeTarget fs p = some (.inside p) ∧ t.expected p = none) ∨
      (t.removeTarget fs p = none ∧ t.expected p = t.restored (.inside p))

/-- What has no status is restored as expected, and each edit is kept when those before it are. -/
def EditsKept : Prop :=
  (∀ p ∉ t.dirtyPaths, t.restored (.inside p) = t.expected p) ∧
    ∀ p ∈ t.dirtyPaths, t.OwnPlace (t.stateAfter (t.dirtyPaths.takeWhile fun q => q ≠ p)) p
      (t.readFile t.files p)

/-! ### The edits, one by one -/

variable {t} {fs fs' final : Files} {p : Path} {bytes : Option Bytes} {place : Option Place}
  {edits : List (Path × Option Bytes)} {writes : List (Path × Place)} {done rest : List Path}

theorem stateAfter_of_notMem (h : p ∉ done) :
    t.stateAfter done (.inside p) = t.restored (.inside p) := if_neg h

/-- One more edit. -/
theorem update_stateAfter (done : List Path) (p : Path) :
    Function.update (t.stateAfter done) (.inside p) (t.expected p) = t.stateAfter (done ++ [p]) := by
  funext q
  cases q with
  | outside name => rfl
  | inside q =>
    by_cases hq : q = p
    · subst hq
      simp [stateAfter]
    · rw [Function.update_of_ne (by simpa using hq)]
      simp [stateAfter, hq]

/-- An edit that is kept leads to the trunk with one more edit. -/
theorem reapply_of_ownPlace (hp : p ∉ done) (h : t.OwnPlace (t.stateAfter done) p bytes) :
    ∃ place, t.reapply (t.stateAfter done) (p, bytes) = some (t.stateAfter (done ++ [p]), place) ∧
      ∀ w, place = some w → w = .inside p := by
  cases bytes with
  | some content =>
    obtain ⟨htarget, hexpected⟩ := h
    refine ⟨some (.inside p), ?_, fun w hw => (Option.some.inj hw).symm⟩
    simp only [reapply, htarget, Option.map_some, stateAfter_of_notMem hp]
    rw [← hexpected, update_stateAfter]
  | none =>
    rcases h with ⟨htarget, hexpected⟩ | ⟨htarget, hexpected⟩
    · refine ⟨some (.inside p), ?_, fun w hw => (Option.some.inj hw).symm⟩
      simp only [reapply, htarget]
      rw [← hexpected, update_stateAfter]
    · refine ⟨none, ?_, by simp⟩
      simp only [reapply, htarget]
      rw [← update_stateAfter, hexpected, ← stateAfter_of_notMem hp, Function.update_eq_self]

/-- An edit changes nothing but the place that it is written at. -/
theorem reapply_frame {edit : Path × Option Bytes} (h : t.reapply fs edit = some (fs', place))
    {q : Place} (hq : place ≠ some q) : fs' q = fs q := by
  rw [reapply] at h
  cases hbytes : edit.2 with
  | some content =>
    simp only [hbytes] at h
    obtain ⟨w, -, hw⟩ := Option.map_eq_some_iff.mp h
    obtain ⟨rfl, rfl⟩ := Prod.mk.inj hw
    exact Function.update_of_ne (fun heq => hq (congrArg some heq.symm)) _ _
  | none =>
    simp only [hbytes] at h
    cases htarget : t.removeTarget fs edit.1 with
    | some w =>
      simp only [htarget] at h
      obtain ⟨rfl, rfl⟩ := Prod.mk.inj (Option.some.inj h)
      exact Function.update_of_ne (fun heq => hq (congrArg some heq.symm)) _ _
    | none =>
      simp only [htarget] at h
      obtain ⟨rfl, rfl⟩ := Prod.mk.inj (Option.some.inj h)
      rfl

/-- A run of a first edit and of the others. -/
theorem reapplyAll_cons {edit : Path × Option Bytes} :
    t.reapplyAll fs (edit :: edits) = some (final, writes) ↔
      ∃ fs' place later, t.reapply fs edit = some (fs', place) ∧
        t.reapplyAll fs' edits = some (final, later) ∧
          writes = (place.toList.map fun place => (edit.1, place)) ++ later := by
  rw [reapplyAll]
  constructor
  · intro h
    obtain ⟨⟨fs', place⟩, hfirst, hrest⟩ := Option.bind_eq_some_iff.mp h
    obtain ⟨⟨final', later⟩, hlater, hdone⟩ := Option.bind_eq_some_iff.mp hrest
    obtain ⟨rfl, rfl⟩ := Prod.mk.inj (Option.some.inj hdone)
    exact ⟨fs', place, later, hfirst, hlater, rfl⟩
  · rintro ⟨fs', place, later, hfirst, hlater, rfl⟩
    simp only [hfirst, Option.bind_eq_bind, Option.bind_some, hlater]
    rfl

/-- Each edit is written at its own path. -/
def Own (writes : List (Path × Place)) : Prop := ∀ write ∈ writes, write.2 = .inside write.1

theorem own_cons {later : List (Path × Place)} :
    Own ((place.toList.map fun place => (p, place)) ++ later) ↔
      (∀ w, place = some w → w = .inside p) ∧ Own later := by
  cases place <;> simp [Own]

/-- Edits at their own paths change nothing else. -/
theorem reapplyAll_frame (h : t.reapplyAll fs edits = some (final, writes)) (hown : Own writes)
    {q : Place} (hq : ∀ edit ∈ edits, q ≠ .inside edit.1) : final q = fs q := by
  induction edits generalizing fs writes with
  | nil =>
    obtain ⟨rfl, rfl⟩ := Prod.mk.inj (Option.some.inj h)
    rfl
  | cons edit edits ih =>
    obtain ⟨fs', place, later, hfirst, hlater, rfl⟩ := reapplyAll_cons.mp h
    obtain ⟨hplace, hown⟩ := own_cons.mp hown
    rw [ih hlater hown fun e he => hq e (List.mem_cons_of_mem _ he)]
    exact reapply_frame hfirst fun heq => hq edit List.mem_cons_self (hplace q heq)

/-- The edits of some paths. -/
def editsOf (t : Trunk) (paths : List Path) : List (Path × Option Bytes) :=
  paths.map fun p => (p, t.readFile t.files p)

theorem takeWhile_ne_of_mem {q : Path} (hp : p ∉ rest) (hq : q ∈ rest) :
    (p :: rest).takeWhile (fun r => r ≠ q) = p :: rest.takeWhile fun r => r ≠ q :=
  List.takeWhile_cons_of_pos (by simpa using fun heq : p = q => hp (heq ▸ hq))

/-- Edits that are kept lead to the trunk with all of them. -/
theorem reapplyAll_of_ownPlace (hnodup : (done ++ rest).Nodup)
    (h : ∀ p ∈ rest, t.OwnPlace (t.stateAfter (done ++ rest.takeWhile fun q => q ≠ p)) p
      (t.readFile t.files p)) :
    ∃ writes, t.reapplyAll (t.stateAfter done) (editsOf t rest) =
      some (t.stateAfter (done ++ rest), writes) ∧ Own writes := by
  induction rest generalizing done with
  | nil => exact ⟨[], by rw [List.append_nil]; rfl, by simp [Own]⟩
  | cons p rest ih =>
    have hp : p ∉ done := fun hmem =>
      List.disjoint_of_nodup_append hnodup hmem List.mem_cons_self
    have hp' : p ∉ rest := (List.nodup_cons.mp (List.nodup_append'.mp hnodup).2.1).1
    have hfirst := h p List.mem_cons_self
    rw [List.takeWhile_cons_of_neg (by simp), List.append_nil] at hfirst
    obtain ⟨place, hreapply, hplace⟩ := reapply_of_ownPlace hp hfirst
    have hlater : ∀ q ∈ rest, t.OwnPlace
        (t.stateAfter ((done ++ [p]) ++ rest.takeWhile fun r => r ≠ q)) q (t.readFile t.files q) := by
      intro q hq
      have hown := h q (List.mem_cons_of_mem _ hq)
      rw [takeWhile_ne_of_mem hp' hq] at hown
      simpa using hown
    obtain ⟨writes, hrun, hown⟩ := ih (by simpa using hnodup) hlater
    refine ⟨_, reapplyAll_cons.mpr ⟨_, place, writes, hreapply, ?_, rfl⟩,
      own_cons.mpr ⟨hplace, hown⟩⟩
    rw [List.append_assoc] at hrun
    exact hrun

/-- An edit that is written at its own path, and leaves what is expected, is kept. -/
theorem ownPlace_of_reapply (hp : p ∉ done)
    (h : t.reapply (t.stateAfter done) (p, bytes) = some (fs', place))
    (hplace : ∀ w, place = some w → w = .inside p) (hexpected : fs' (.inside p) = t.expected p) :
    t.OwnPlace (t.stateAfter done) p bytes := by
  cases bytes with
  | some content =>
    simp only [reapply] at h
    obtain ⟨w, htarget, hw⟩ := Option.map_eq_some_iff.mp h
    obtain ⟨rfl, rfl⟩ := Prod.mk.inj hw
    obtain rfl := hplace w rfl
    rw [Function.update_self, stateAfter_of_notMem hp] at hexpected
    exact ⟨htarget, hexpected.symm⟩
  | none =>
    simp only [reapply] at h
    cases htarget : t.removeTarget (t.stateAfter done) p with
    | some w =>
      simp only [htarget] at h
      obtain ⟨rfl, rfl⟩ := Prod.mk.inj (Option.some.inj h)
      obtain rfl := hplace w rfl
      rw [Function.update_self] at hexpected
      exact .inl ⟨htarget, hexpected.symm⟩
    | none =>
      simp only [htarget] at h
      obtain ⟨rfl, rfl⟩ := Prod.mk.inj (Option.some.inj h)
      rw [stateAfter_of_notMem hp] at hexpected
      exact .inr ⟨htarget, hexpected.symm⟩

/-- Edits at their own paths that lead to what is expected are kept, one after the other. -/
theorem ownPlace_of_reapplyAll (hnodup : (done ++ rest).Nodup)
    (h : t.reapplyAll (t.stateAfter done) (editsOf t rest) = some (final, writes))
    (hown : Own writes) (hexpected : ∀ p, final (.inside p) = t.expected p) :
    ∀ p ∈ rest, t.OwnPlace (t.stateAfter (done ++ rest.takeWhile fun q => q ≠ p)) p
      (t.readFile t.files p) := by
  induction rest generalizing done writes with
  | nil => simp
  | cons p rest ih =>
    have hp : p ∉ done := fun hmem =>
      List.disjoint_of_nodup_append hnodup hmem List.mem_cons_self
    have hp' : p ∉ rest := (List.nodup_cons.mp (List.nodup_append'.mp hnodup).2.1).1
    obtain ⟨fs', place, later, hreapply, hlater, rfl⟩ := reapplyAll_cons.mp h
    obtain ⟨hplace, hown⟩ := own_cons.mp hown
    have hkept : fs' (.inside p) = t.expected p := by
      rw [← hexpected p]
      refine (reapplyAll_frame hlater hown fun edit hedit heq => hp' ?_).symm
      obtain ⟨q, hq, rfl⟩ := List.mem_map.mp hedit
      exact Place.inside.inj heq ▸ hq
    have hfirst := ownPlace_of_reapply hp hreapply hplace hkept
    obtain ⟨place', hreapply', -⟩ := reapply_of_ownPlace hp hfirst
    obtain ⟨rfl, rfl⟩ := Prod.mk.inj (Option.some.inj (hreapply.symm.trans hreapply'))
    intro q hq
    rcases List.mem_cons.mp hq with rfl | hq
    · rw [List.takeWhile_cons_of_neg (by simp), List.append_nil]
      exact hfirst
    · rw [takeWhile_ne_of_mem hp' hq]
      simpa using ih (by simpa using hnodup) hlater hown q hq

theorem nodup_dirtyPaths (t : Trunk) : t.dirtyPaths.Nodup := by
  rw [dirtyPaths]
  refine List.Nodup.filter _ ?_
  cases hstatus : t.status with
  | none => exact List.nodup_nil
  | some paths => exact t.status_nodup paths hstatus

theorem stateAfter_nil (t : Trunk) : t.stateAfter [] = t.restored := by
  funext place
  cases place <;> simp [stateAfter]

/-- The trunk is restored with its edits if and only if the edits are kept. -/
theorem restored_iff (t : Trunk) : t.Restored t.resetTrunkWorktree ↔ t.EditsKept := by
  have hnodup : ([] ++ t.dirtyPaths).Nodup := nodup_dirtyPaths t
  rw [resetTrunkWorktree, ← stateAfter_nil t]
  constructor
  · intro h
    cases hrun : t.reapplyAll (t.stateAfter []) t.captureTrunkDirty with
    | none =>
      rw [hrun] at h
      exact h.elim
    | some result =>
      obtain ⟨final, writes⟩ := result
      rw [hrun] at h
      obtain ⟨hexpected, -, hown⟩ := h
      refine ⟨fun p hp => ?_, ownPlace_of_reapplyAll hnodup hrun hown hexpected⟩
      rw [← hexpected p, reapplyAll_frame hrun hown, stateAfter_nil]
      intro edit hedit heq
      obtain ⟨q, hq, rfl⟩ := List.mem_map.mp hedit
      exact hp (Place.inside.inj heq ▸ hq)
  · rintro ⟨hclean, hedits⟩
    obtain ⟨writes, hrun, hown⟩ := reapplyAll_of_ownPlace hnodup hedits
    have hrun' : t.reapplyAll (t.stateAfter []) t.captureTrunkDirty =
        some (t.stateAfter t.dirtyPaths, writes) := hrun
    rw [hrun']
    refine ⟨fun p => ?_, t.restored_outside, hown⟩
    by_cases hp : p ∈ t.dirtyPaths
    · exact if_pos hp
    · rw [stateAfter_of_notMem hp, hclean p hp]

end Trunk

/-! ### The sources after an undo -/

/-- The commit that the state of a destroyed workspace is read from. -/
def resolveRecoverableOid (record : DestroyRecord) : Option String :=
  match record.captureMode with
  | .dirtySnapshot => record.snapshotOid
  | .headOnly => some record.finalHead
  | .none => none

/-- The sources of a merge: the workspaces that exist, with their content, the records, and whether
workspaces can be created and filled. -/
structure Sources where
  sources : List String
  present : String → Option GitTree
  records : String → DestroyDir
  treeOf : String → Option GitTree
  creates : String → Bool
  populates : String → Bool
  /-- The sources that the merge destroyed, with what it captured of them. -/
  destroyed : List String
  destroyed_subset : destroyed ⊆ sources
  captured : String → GitTree

namespace Sources

variable (env : Sources)

/-- A new workspace with the state of a record. -/
def restoreTo (source : String) (record : DestroyRecord) : Option GitTree :=
  (resolveRecoverableOid record).bind fun oid =>
    if env.creates source && env.populates source then env.treeOf oid else none

/-- Restore the sources that do not exist; stops at records that cannot be read. -/
def restoreSources (present : String → Option GitTree) : List String → String → Option GitTree
  | [] => present
  | source :: rest =>
    match present source with
    | some _ => restoreSources present rest
    | none =>
      match (env.records source).readLatestRecord with
      | .error _ => present
      | .ok none => restoreSources present rest
      | .ok (some record) =>
        restoreSources (Function.update present source (env.restoreTo source record)) rest

/-- What a source is restored as. -/
def restoredAs (source : String) : Option GitTree :=
  match (env.records source).readLatestRecord with
  | .ok (some record) => env.restoreTo source record
  | _ => none

def Readable (source : String) : Prop := ∀ e, (env.records source).readLatestRecord ≠ .error e

variable {env} {present : String → Option GitTree} {source : String} {tree : GitTree}
  {rest : List String}

/-- A workspace that exists is left alone. -/
theorem restoreSources_of_present (h : present source = some tree) :
    env.restoreSources present rest source = some tree := by
  induction rest generalizing present with
  | nil => exact h
  | cons s rest ih =>
    cases hs : present s with
    | some content =>
      simp only [restoreSources, hs]
      exact ih h
    | none =>
      have hne : source ≠ s := by
        rintro rfl
        rw [h] at hs
        cases hs
      cases hread : (env.records s).readLatestRecord with
      | error e =>
        simp only [restoreSources, hs, hread]
        exact h
      | ok record =>
        cases record with
        | none =>
          simp only [restoreSources, hs, hread]
          exact ih h
        | some record =>
          simp only [restoreSources, hs, hread]
          refine ih ?_
          rw [Function.update_of_ne hne, h]

/-- A source whose records lead to nothing stays away. -/
theorem restoreSources_of_restoredAs (h : present source = none)
    (hnone : env.restoredAs source = none) : env.restoreSources present rest source = none := by
  induction rest generalizing present with
  | nil => exact h
  | cons s rest ih =>
    cases hs : present s with
    | some content =>
      simp only [restoreSources, hs]
      exact ih h
    | none =>
      cases hread : (env.records s).readLatestRecord with
      | error e =>
        simp only [restoreSources, hs, hread]
        exact h
      | ok record =>
        cases record with
        | none =>
          simp only [restoreSources, hs, hread]
          exact ih h
        | some record =>
          simp only [restoreSources, hs, hread]
          refine ih ?_
          by_cases heq : source = s
          · subst heq
            rw [Function.update_self, ← hnone, restoredAs, hread]
          · rw [Function.update_of_ne heq, h]

/-- A source that does not exist is restored if the records of those before it can be read. -/
theorem restoreSources_iff (hnone : present source = none) (hmem : source ∈ rest) :
    env.restoreSources present rest source = some tree ↔
      env.restoredAs source = some tree ∧
        ∀ s ∈ rest.takeWhile fun s => s ≠ source, present s = none → env.Readable s := by
  induction rest generalizing present with
  | nil => cases hmem
  | cons s rest ih =>
    by_cases heq : s = source
    · subst heq
      rw [List.takeWhile_cons_of_neg (by simp), and_iff_left (by simp), restoreSources, hnone]
      cases hread : (env.records s).readLatestRecord with
      | error e => simp [restoredAs, hread, hnone]
      | ok record =>
        cases record with
        | none =>
          have hrestored : env.restoredAs s = none := by rw [restoredAs, hread]
          simp [restoreSources_of_restoredAs hnone hrestored, hrestored]
        | some record =>
          have hrestored : env.restoredAs s = env.restoreTo s record := by rw [restoredAs, hread]
          cases hto : env.restoreTo s record with
          | none =>
            rw [hto] at hrestored
            have hupdate : Function.update present s none s = none := Function.update_self ..
            simp [restoreSources_of_restoredAs hupdate hrestored, hrestored, hto]
          | some content =>
            have hupdate : Function.update present s (some content) s = some content :=
              Function.update_self ..
            simp [restoreSources_of_present hupdate, hrestored, hto]
    · have hmem' : source ∈ rest := (List.mem_cons.mp hmem).resolve_left fun h => heq h.symm
      rw [List.takeWhile_cons_of_pos (by simpa using heq), restoreSources, List.forall_mem_cons]
      cases hs : present s with
      | some content => simp [ih hnone hmem']
      | none =>
        cases hread : (env.records s).readLatestRecord with
        | error e =>
          have hunreadable : ¬ env.Readable s := fun h => h e hread
          simp [hnone, hunreadable]
        | ok record =>
          have hreadable : env.Readable s := fun e h => by rw [hread] at h; cases h
          cases record with
          | none => simp [ih hnone hmem', hreadable]
          | some record =>
            have hnone' : Function.update present s (env.restoreTo s record) source = none := by
              rw [Function.update_of_ne (Ne.symm heq), hnone]
            have hother : (∀ u ∈ rest.takeWhile fun u => u ≠ source,
                Function.update present s (env.restoreTo s record) u = none → env.Readable u) ↔
                ∀ u ∈ rest.takeWhile fun u => u ≠ source, present u = none → env.Readable u := by
              refine forall₂_congr fun u _ => ?_
              by_cases hu : u = s
              · subst hu
                simp [hreadable]
              · rw [Function.update_of_ne hu]
            simp only [ih hnone' hmem', hother, hreadable, implies_true, true_and]

/-- The sources that the merge destroyed exist again as they were captured. -/
def Restored (env : Sources) (after : String → Option GitTree) : Prop :=
  ∀ s ∈ env.destroyed, after s = some (env.captured s)

/-- Each source that the merge destroyed exists as it was captured, or its latest record leads to what
was captured and the records of the sources before it can be read. -/
def Kept (env : Sources) : Prop :=
  ∀ s ∈ env.destroyed,
    match env.present s with
    | some tree => tree = env.captured s
    | none => env.restoredAs s = some (env.captured s) ∧
        ∀ u ∈ env.sources.takeWhile fun u => u ≠ s, env.present u = none → env.Readable u

theorem restored_iff (env : Sources) :
    env.Restored (env.restoreSources env.present env.sources) ↔ env.Kept := by
  refine forall₂_congr fun s hs => ?_
  cases hpresent : env.present s with
  | some tree => rw [restoreSources_of_present hpresent, Option.some.injEq]
  | none => exact restoreSources_iff hpresent (env.destroyed_subset hs)

end Sources

/-! ### The sources after a redo -/

/-- The sources that a redo destroys again: whether they exist, what the capture of each answers, and
whether it can be destroyed. -/
structure Redo where
  sources : List String
  present : String → Bool
  capture : String → Except Unit (Option String)
  destroys : String → Bool

namespace Redo

variable (env : Redo)

/-- Destroy the sources that exist, with a record of each, be it without a snapshot. -/
def redestroySources (present : String → Bool) :
    List String → (String → Bool) × List (String × Option String)
  | [] => (present, [])
  | source :: rest =>
    if present source then
      let present' := if env.destroys source then Function.update present source false else present
      let (final, records) := redestroySources present' rest
      (final, (source, (env.capture source).toOption.join) :: records)
    else redestroySources present rest

variable {env} {present : String → Bool} {source : String} {rest : List String}

theorem redestroySources_eq : (env.redestroySources present rest).1 source =
    (present source && !(decide (source ∈ rest) && env.destroys source)) := by
  induction rest generalizing present with
  | nil => simp [redestroySources]
  | cons s rest ih =>
    by_cases heq : source = s
    · subst heq
      rw [redestroySources]
      by_cases hpresent : present source = true <;> by_cases hdestroys : env.destroys source = true <;>
        simp [ih, hpresent, hdestroys]
    · have hother : (if env.destroys s then Function.update present s false else present) source =
          present source := by
        split_ifs
        · exact Function.update_of_ne heq _ _
        · rfl
      have hmem : source ∈ s :: rest ↔ source ∈ rest := List.mem_cons.trans (or_iff_right heq)
      by_cases hpresent : present s = true
      · simp only [redestroySources, if_pos hpresent, ih, hother, hmem]
      · simp only [redestroySources, if_neg hpresent, ih, hmem]

/-- A source is deleted only if its state was captured. -/
def CapturesFirst (env : Redo) : Prop :=
  ∀ s, env.present s = true → (env.redestroySources env.present env.sources).1 s = false →
    env.capture s ≠ .error ()

/-- The capture of each source that exists and can be destroyed succeeds. -/
def CapturesSucceed (env : Redo) : Prop :=
  ∀ s ∈ env.sources, env.present s = true → env.destroys s = true → env.capture s ≠ .error ()

theorem capturesFirst_iff (env : Redo) : env.CapturesFirst ↔ env.CapturesSucceed := by
  constructor
  · intro h s hs hpresent hdestroys
    refine h s hpresent ?_
    simp [redestroySources_eq, hs, hdestroys]
  · intro h s hpresent hgone
    rw [redestroySources_eq, hpresent, Bool.true_and, Bool.not_eq_false', Bool.and_eq_true,
      decide_eq_true_eq] at hgone
    exact h s hgone.1 hpresent hgone.2

end Redo

/-! ### Undo and redo -/

/-- What an undo and a later redo are given. -/
structure UndoEnv where
  trunk : Trunk
  undo : Sources
  redo : Redo

namespace UndoEnv

variable (env : UndoEnv)

/-- The trunk and the sources after an undo; a trunk that cannot be reset ends it. -/
def executeUndo : Option (Files × List (Path × Place)) × (String → Option GitTree) :=
  match env.trunk.resetTrunkWorktree with
  | none => (none, env.undo.present)
  | some trunk => (some trunk, env.undo.restoreSources env.undo.present env.undo.sources)

/-- The trunk has its edits, the sources exist as they were captured, and a redo captures what it
deletes. -/
def LosesNoWork : Prop :=
  env.trunk.Restored env.executeUndo.1 ∧ env.undo.Restored env.executeUndo.2 ∧
    env.redo.CapturesFirst

theorem executeUndo_trunk : env.executeUndo.1 = env.trunk.resetTrunkWorktree := by
  rw [executeUndo]
  cases env.trunk.resetTrunkWorktree <;> rfl

/-- No work is lost if and only if the edits are kept at their own paths with their modes, the latest
records lead to what was captured, and captures succeed. -/
theorem losesNoWork_iff :
    env.LosesNoWork ↔ env.trunk.EditsKept ∧ env.undo.Kept ∧ env.redo.CapturesSucceed := by
  rw [LosesNoWork, executeUndo_trunk, Trunk.restored_iff]
  refine and_congr_right fun hkept => and_congr ?_ env.redo.capturesFirst_iff
  have hreset := env.trunk.restored_iff.mpr hkept
  cases hrun : env.trunk.resetTrunkWorktree with
  | none =>
    rw [hrun] at hreset
    exact hreset.elim
  | some trunk =>
    rw [executeUndo, hrun]
    exact env.undo.restored_iff

end UndoEnv

/-! ### An edit of a mode -/

def scriptPath : Path := ⟨[Component.lit "deploy.sh"], by decide⟩

def scriptTree (executable : Bool) (p : Path) : Option FileNode :=
  if p = scriptPath then some (.regular [1] executable) else none

/-- The tree of both epochs has a file that is not executable. -/
def scriptFiles (executable : Bool) : Files
  | .inside p => scriptTree executable p
  | .outside _ => none

theorem scriptTree_of_ne {p : Path} (h : p ≠ scriptPath) (executable : Bool) :
    scriptTree executable p = none := if_neg h

/-- On disk the file was made executable. -/
def scriptTrunk : Trunk where
  fromTree := scriptTree false
  toTree := scriptTree false
  index := scriptTree false
  files := scriptFiles true
  status := some [scriptPath]
  status_nodup paths h := by
    obtain rfl := Option.some.inj h
    exact List.nodup_singleton _
  restored := scriptFiles false
  restored_tree _ _ h := h
  restored_tracked _ h _ := h
  restored_untracked p _ h := by
    by_cases hp : p = scriptPath
    · subst hp
      cases h
    · rw [scriptFiles, scriptFiles, scriptTree_of_ne hp, scriptTree_of_ne hp]
  restored_outside _ := rfl
  resolve _ p := some (.inside p)
  resolve_plain _ _ _ := rfl
  links _ _ := none
  isDirectory _ _ := false
  unreadable _ := false

def scriptUndo : UndoEnv where
  trunk := scriptTrunk
  undo := {
    sources := []
    present := fun _ => none
    records := fun _ => ⟨∅, none⟩
    treeOf := fun _ => none
    creates := fun _ => true
    populates := fun _ => true
    destroyed := []
    destroyed_subset := List.Subset.refl _
    captured := fun _ => ∅ }
  redo := ⟨[], fun _ => false, fun _ => .ok none, fun _ => true⟩

/-- The undo leaves the file without its mode. -/
theorem not_losesNoWork : ¬ scriptUndo.LosesNoWork := by
  rintro ⟨htrunk, -, -⟩
  rw [UndoEnv.executeUndo_trunk, Trunk.restored_iff] at htrunk
  have hkept : scriptTrunk.EditsKept := htrunk
  have hdirty : scriptPath ∈ scriptTrunk.dirtyPaths := by decide +kernel
  have hread : scriptTrunk.readFile scriptTrunk.files scriptPath = some [1] := by decide +kernel
  have hexpected : scriptTrunk.expected scriptPath = some (.regular [1] true) := by decide +kernel
  have hown := hkept.2 scriptPath hdirty
  rw [hread] at hown
  have hmode := hexpected.symm.trans hown.2
  revert hmode
  decide +kernel

end Maw.UndoMerge
