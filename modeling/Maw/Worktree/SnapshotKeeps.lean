import Maw.Worktree.SnapshotClean

/-!
# What a snapshot keeps

A path that a reset and a clean change is in the snapshot, or is left as it is: where all that
differs is text and shows in the status, the paths that are left out are as in HEAD, nothing that is
not staged stands in the place of a file of HEAD, and what is ignored stays ignored. The ref of a
workspace holds its last snapshot.

## Main definitions

* `SnapshotHeeds` — what a snapshot needs to lose nothing.
* `Keeps` — a path is in the snapshot or is left as it is.
* `History` — the snapshots of a workspace, and whether their edits are back.

## Main results

* `snapshot_keeps_edits` — a snapshot loses no edit, and the last one stays under its ref.
* `not_snapshot_keeps_edits` — the snapshot before the last one is lost.
-/

open Interleaved PrefixOrder

namespace Maw.SnapshotClean

open StatusItems RelaPath SnapshotOp

/-! ### What is kept -/

section Kept

variable (env : SnapshotEnv) (w : SnapshotWorld)

/-- The worktree when all is staged but what is left out. -/
def ready : SnapshotWorld :=
  let staged := { w with index := w.stagedIndex env }
  { staged with index := staged.unstagedIndex }

/-- A path that is in the snapshot as it is on disk. -/
def Captured (p : RelaPath) : Prop :=
  p.toStr ≠ none ∧ isAdmin p = false ∧ w.IsAdded env p ∧
    ((w.disk.lookup p).bind Occupant.fileEntry).isSome = true

/-- The disk when a reset has reached some of the paths. -/
def PartlyReset (disk : Files) : Prop :=
  ∀ p, disk.lookup p = w.disk.lookup p ∨ disk.lookup p = (ready env w).resetFile p

/-- What differs is text and shows; the reset of the paths that are left out succeeds, and they are
as in HEAD; nothing that is not captured is where HEAD has something else; what is ignored stays
ignored while the worktree is reset. -/
structure SnapshotHeeds : Prop where
  text : ∀ p, (w.statusRepo env).Differs p → p.toStr ≠ none
  shown : ∀ p, w.headTree.lookup (ofPath p) = none → (w.statusRepo env).Untracked (ofPath p) →
    (env.rules w.disk).gitIgnored (ofPath p) = false → hidden (env.rules w.disk) (ofPath p) = false
  unstages : env.unstageFails = false
  admin : ∀ p, isAdmin p = true → w.headTree.lookup p ≠ none →
    (w.disk.lookup p).bind Occupant.entry = w.headTree.lookup p
  clear : ∀ p occupant, w.disk.lookup p = some occupant → ¬ Captured env w p →
    ¬ w.InTheWay p occupant ∧
      ∀ e, w.headTree.lookup p = some e → SnapshotWorld.fileOf (some occupant) e = some occupant
  ignored : ∀ p, w.index.lookup p = none → (env.rules w.disk).gitIgnored p = true →
    ∀ disk, PartlyReset env w disk → (env.rules disk).gitIgnored p = true

/-- The path is left as it is, or is in the snapshot as it was. -/
def Keeps (tree : Tree) (disk : Files) (p : RelaPath) : Prop :=
  disk.lookup p = w.disk.lookup p ∨
    (tree.lookup p = (w.disk.lookup p).bind Occupant.fileEntry ∧
      ∀ occupant, w.disk.lookup p = some occupant → occupant.fileEntry ≠ none)

variable {env w} {p : RelaPath}

@[simp]
theorem ready_disk : (ready env w).disk = w.disk := rfl

@[simp]
theorem ready_headTree : (ready env w).headTree = w.headTree := rfl

theorem lookup_stagedIndex : (w.stagedIndex env).lookup p =
    if w.IsAdded env p then ((w.disk.lookup p).bind Occupant.entry).map .staged else none := by
  rw [SnapshotWorld.stagedIndex, FiniteMap.lookup_ofFun]
  split_ifs with hkeys hadded hadded
  · rfl
  · rfl
  · rw [Finset.mem_union, not_or, Finmap.mem_keys, Finmap.mem_keys, ← Finmap.lookup_eq_none,
      ← Finmap.lookup_eq_none] at hkeys
    rw [hkeys.2]
    rfl
  · rfl

/-- The index when the reset starts. -/
theorem lookup_ready : (ready env w).index.lookup p =
    if isAdmin p = true then (w.headTree.lookup p).map .staged
    else if w.IsAdded env p then ((w.disk.lookup p).bind Occupant.entry).map .staged else none := by
  have hindex : (ready env w).index.lookup p = if isAdmin p = true then
      (w.headTree.lookup p).map .staged else (w.stagedIndex env).lookup p := by
    rw [ready, SnapshotWorld.unstagedIndex, FiniteMap.lookup_ofFun]
    split_ifs with hkeys hadmin hadmin
    · rfl
    · rfl
    · rw [Finset.mem_union, not_or, Finmap.mem_keys, Finmap.mem_keys, ← Finmap.lookup_eq_none,
        ← Finmap.lookup_eq_none] at hkeys
      exact (congrArg (Option.map IndexEntry.staged) hkeys.2).symm
    · rw [Finset.mem_union, not_or, Finmap.mem_keys, Finmap.mem_keys, ← Finmap.lookup_eq_none,
        ← Finmap.lookup_eq_none] at hkeys
      exact hkeys.1.symm
  rw [hindex, lookup_stagedIndex]

theorem lookup_writeIndexTree : w.writeIndexTree.lookup p =
    match w.index.lookup p with
    | some (.staged e) => if p.toStr.isSome ∧ e.mode ≠ .tree then some e else none
    | _ => none := by
  rw [SnapshotWorld.writeIndexTree, FiniteMap.lookup_ofFun]
  split_ifs with hkeys
  · rfl
  · rw [Finmap.mem_keys, ← Finmap.lookup_eq_none] at hkeys
    rw [hkeys]

theorem mode_of_fileEntry {occupant : Occupant} {e : MaterializedEntry}
    (h : occupant.fileEntry = some e) : e.mode ≠ .tree := by
  cases occupant <;> simp_all [Occupant.fileEntry] <;> rw [← h] <;> exact EntryMode.noConfusion

/-- A path that is captured is in the tree as it is on disk. -/
theorem lookup_of_captured (h : Captured env w p) :
    (ready env w).writeIndexTree.lookup p = (w.disk.lookup p).bind Occupant.fileEntry := by
  obtain ⟨htext, hadmin, hadded, hfile⟩ := h
  obtain ⟨e, he⟩ := Option.isSome_iff_exists.mp hfile
  obtain ⟨occupant, hdisk, hentry⟩ := Option.bind_eq_some_iff.mp he
  have hstaged : (w.disk.lookup p).bind Occupant.entry = some e := by
    rw [hdisk]
    exact Occupant.entry_of_fileEntry hentry
  rw [lookup_writeIndexTree, lookup_ready, if_neg (by simp [hadmin]), if_pos hadded, hstaged, he]
  exact if_pos ⟨Option.isSome_iff_ne_none.mpr htext, mode_of_fileEntry hentry⟩

/-- A path that is gone is not in the tree. -/
theorem lookup_of_gone (h : SnapshotHeeds env w) (hdisk : w.disk.lookup p = none) :
    (ready env w).writeIndexTree.lookup p = none := by
  have hindex : (ready env w).index.lookup p = none := by
    rw [lookup_ready]
    split_ifs with hadmin hadded
    · by_contra hne
      have hhead : w.headTree.lookup p ≠ none := fun hnone => hne (by rw [hnone]; rfl)
      have hsame := h.admin p hadmin hhead
      rw [hdisk] at hsame
      exact hhead hsame.symm
    · rw [hdisk]
      rfl
    · rfl
  rw [lookup_writeIndexTree, hindex]

/-- What is added and differs from HEAD is text. -/
theorem text_of_added (h : SnapshotHeeds env w) {occupant : Occupant}
    (hdisk : w.disk.lookup p = some occupant) (hfile : occupant.fileEntry ≠ none)
    (hhead : w.headTree.lookup p = none) (hadded : w.IsAdded env p) : p.toStr ≠ none := by
  refine h.text p ?_
  obtain ⟨e, he⟩ := Option.ne_none_iff_exists'.mp hfile
  by_cases hindex : w.index.lookup p = none
  · refine Or.inr ⟨⟨hindex, occupant, hdisk, ?_⟩, hadded.resolve_left fun hne => hne hindex⟩
    rintro rfl
    cases he
  · refine Or.inl ⟨Or.inr hindex, ?_⟩
    have hentry : (w.statusRepo env).worktreeEntry p = some e := by
      rw [StatusRepo.worktreeEntry, SnapshotWorld.statusRepo, hdisk]
      exact Occupant.entry_of_fileEntry he
    rw [hentry]
    exact fun heq => Option.some_ne_none _ (heq.trans hhead)

/-- What is not captured is not in the index when the reset starts, unless HEAD has it. -/
theorem ready_of_not_captured (h : SnapshotHeeds env w) {occupant : Occupant}
    (hdisk : w.disk.lookup p = some occupant) (hnot : ¬ Captured env w p)
    (hrepository : isRepository occupant = false) (hhead : w.headTree.lookup p = none) :
    (ready env w).index.lookup p = none := by
  rw [lookup_ready]
  split_ifs with hadmin hadded
  · rw [hhead]
    rfl
  · by_cases hfile : occupant.fileEntry = none
    · have hentry : occupant.entry = none := by
        cases occupant with
        | repository _ => cases hrepository
        | special => rfl
        | _ => cases hfile
      rw [hdisk, Option.bind_some, hentry]
      rfl
    · have htext := text_of_added h hdisk hfile hhead hadded
      refine absurd ⟨htext, by simpa using hadmin, hadded, ?_⟩ hnot
      rw [hdisk]
      exact Option.isSome_iff_ne_none.mpr hfile
  · rfl

/-- A reset leaves what is not captured. -/
theorem resetFile_of_not_captured (h : SnapshotHeeds env w) {occupant : Occupant}
    (hdisk : w.disk.lookup p = some occupant) (hnot : ¬ Captured env w p) :
    (ready env w).resetFile p = some occupant := by
  classical
  obtain ⟨hway, hsame⟩ := h.clear p occupant hdisk hnot
  rw [SnapshotWorld.resetFile, ready_headTree, ready_disk, hdisk]
  cases hhead : w.headTree.lookup p with
  | some e => exact hsame e hhead
  | none =>
    refine Option.filter_eq_some_iff.mpr ⟨rfl, ?_⟩
    rw [decide_eq_true_iff]
    refine ⟨hway, ?_⟩
    cases hrepository : isRepository occupant with
    | true => exact Or.inr rfl
    | false => exact Or.inl (ready_of_not_captured h hdisk hnot hrepository hhead)

/-- The worktree after the reset: some paths are reset, or all of them and the index as well. -/
structure AfterReset (env : SnapshotEnv) (w w₁ : SnapshotWorld) : Prop where
  disk : PartlyReset env w w₁.disk
  index : w₁.index = (ready env w).index ∨ w₁.index = w.headIndex

theorem lookup_headIndex : w.headIndex.lookup p = (w.headTree.lookup p).map .staged := by
  rw [SnapshotWorld.headIndex, FiniteMap.lookup_ofFun]
  split_ifs with hkeys
  · rfl
  · rw [Finmap.mem_keys, ← Finmap.lookup_eq_none] at hkeys
    rw [hkeys]
    rfl

theorem excludedByClean_of_isAdmin (h : isAdmin p = true) : excludedByClean p = true := by
  obtain ⟨name, hname, hmem⟩ := Option.any_eq_true _ _ |>.mp h
  exact List.any_eq_true.mpr ⟨name, List.mem_of_head? hname, hmem⟩

/-- A clean leaves what is not captured. -/
theorem not_cleaned_of_not_captured (h : SnapshotHeeds env w) {w₁ : SnapshotWorld}
    (hafter : AfterReset env w w₁) {occupant : Occupant}
    (hdisk : w.disk.lookup p = some occupant) (hnot : ¬ Captured env w p) :
    w₁.disk.lookup p = some occupant ∧ ¬ w₁.Cleaned env p := by
  have hstays : w₁.disk.lookup p = some occupant := by
    rcases hafter.disk p with hsame | hreset
    · rw [hsame, hdisk]
    · rw [hreset, resetFile_of_not_captured h hdisk hnot]
  refine ⟨hstays, ?_⟩
  rintro ⟨hindex, hfile, hignored, hexcluded⟩
  rw [hstays] at hfile
  have hfile : occupant.fileEntry ≠ none := Option.isSome_iff_ne_none.mp hfile
  have hadmin : isAdmin p = false := by
    by_contra hne
    rw [excludedByClean_of_isAdmin (by simpa using hne)] at hexcluded
    cases hexcluded
  by_cases hadded : w.IsAdded env p
  · -- It has been staged, so it is not in the index of HEAD.
    obtain ⟨e, he⟩ := Option.ne_none_iff_exists'.mp hfile
    have hhead : w.headTree.lookup p = none := by
      rcases hafter.index with hready | hheadIndex
      · rw [hready, lookup_ready, if_neg (by simp [hadmin]), if_pos hadded, hdisk,
          Option.bind_some, Occupant.entry_of_fileEntry he] at hindex
        cases hindex
      · rw [hheadIndex, lookup_headIndex] at hindex
        exact Option.map_eq_none_iff.mp hindex
    have htext := text_of_added h hdisk hfile hhead hadded
    refine hnot ⟨htext, hadmin, hadded, ?_⟩
    rw [hdisk]
    exact Option.isSome_iff_ne_none.mpr hfile
  · obtain ⟨htracked, hnow⟩ := not_or.mp hadded
    rw [h.ignored p (not_not.mp htracked) (by simpa using hnow) _ hafter.disk] at hignored
    cases hignored

section AfterReset

variable {w₁ : SnapshotWorld} {disk : Files}

/-- After the clean every path is kept. -/
theorem keeps_of_afterReset (h : SnapshotHeeds env w) (hafter : AfterReset env w w₁)
    (hclean : ∀ p, disk.lookup p = w₁.disk.lookup p ∨ w₁.Cleaned env p ∧ disk.lookup p = none)
    (p : RelaPath) : Keeps w (ready env w).writeIndexTree disk p := by
  cases hdisk : w.disk.lookup p with
  | none =>
    refine Or.inr ⟨?_, fun occupant hthere => ?_⟩
    · rw [lookup_of_gone h hdisk, hdisk]
      rfl
    · rw [hdisk] at hthere
      cases hthere
  | some occupant =>
    by_cases hcaptured : Captured env w p
    · refine Or.inr ⟨lookup_of_captured hcaptured, fun other hthere => ?_⟩
      have hfile := hcaptured.2.2.2
      rw [hthere] at hfile
      exact Option.isSome_iff_ne_none.mp hfile
    · obtain ⟨hstays, hnot⟩ := not_cleaned_of_not_captured h hafter hdisk hcaptured
      rcases hclean p with hsame | ⟨hcleaned, -⟩
      · exact Or.inl (hsame.trans (hstays.trans hdisk.symm))
      · exact absurd hcleaned hnot

/-- The paths that are left out are as they were. -/
theorem admin_of_afterReset (h : SnapshotHeeds env w) (hafter : AfterReset env w w₁)
    (hclean : ∀ p, disk.lookup p = w₁.disk.lookup p ∨ w₁.Cleaned env p ∧ disk.lookup p = none)
    (hadmin : isAdmin p = true) : disk.lookup p = w.disk.lookup p := by
  have hsame : disk.lookup p = w₁.disk.lookup p := by
    rcases hclean p with hsame | ⟨hcleaned, -⟩
    · exact hsame
    · have hexcluded := hcleaned.2.2.2
      rw [excludedByClean_of_isAdmin hadmin] at hexcluded
      cases hexcluded
  rw [hsame]
  rcases hafter.disk p with hkept | hreset
  · exact hkept
  · rw [hreset]
    cases hdisk : w.disk.lookup p with
    | some occupant =>
      refine resetFile_of_not_captured h hdisk fun hcaptured => ?_
      rw [hcaptured.2.1] at hadmin
      cases hadmin
    | none =>
      have hhead : w.headTree.lookup p = none := by
        by_contra hne
        have hentry := h.admin p hadmin hne
        rw [hdisk] at hentry
        exact hne hentry.symm
      rw [SnapshotWorld.resetFile, ready_headTree, hhead, ready_disk, hdisk]
      rfl

end AfterReset

end Kept

/-! ### How a snapshot ends -/

section Runs

variable {env : SnapshotEnv} {w w' : SnapshotWorld}

/-- The files and the refs are left. -/
def LeavesFiles (w w' : SnapshotWorld) : Prop := w'.disk = w.disk ∧ w'.refs = w.refs

/-- The operations in front of the pin. -/
def BeforePin : SnapshotOp → Prop
  | .status | .readRef | .addAll | .unstageAdmin | .stashCreate | .unstageAll => True
  | _ => False

theorem leavesFiles_of_exec {op : SnapshotOp} {r : Except SnapshotError op.Ret} (hop : BeforePin op)
    (h : op.exec env w r w') : LeavesFiles w w' := by
  cases op with
  | status | readRef =>
    obtain ⟨rfl, -⟩ := h
    exact ⟨rfl, rfl⟩
  | addAll =>
    rcases h with ⟨-, rfl⟩ | ⟨-, -, rfl⟩
    · exact ⟨rfl, rfl⟩
    · exact ⟨rfl, rfl⟩
  | unstageAdmin =>
    rcases h with ⟨-, -, rfl⟩ | ⟨-, rfl⟩
    · exact ⟨rfl, rfl⟩
    · exact ⟨rfl, rfl⟩
  | stashCreate =>
    rcases h with ⟨-, rfl⟩ | ⟨-, rfl, -⟩ | ⟨-, indexOid, stashOid, indexed, stashed, -, -, -, rfl⟩
    · exact ⟨rfl, rfl⟩
    · exact ⟨rfl, rfl⟩
    · exact ⟨rfl, rfl⟩
  | unstageAll =>
    rcases h with ⟨-, rfl⟩ | ⟨-, rfl⟩
    · exact ⟨rfl, rfl⟩
    · exact ⟨rfl, rfl⟩
  | _ => exact hop.elim

/-- A program in front of the pin leaves the files and the refs. -/
theorem leavesFiles_of_runs {α : Type} {p : SnapshotProg α} (hp : p.run.Only BeforePin)
    {q : Prog SnapshotOp (fun op => Except SnapshotError op.Ret) (Except SnapshotError α)}
    (h : Prog.Runs (SnapshotOp.exec env) p.run w q w') : LeavesFiles w w' :=
  h.frame (T := LeavesFiles) (fun _ => ⟨rfl, rfl⟩)
    (fun _ _ _ hfirst hrest => ⟨hrest.1.trans hfirst.1, hrest.2.trans hfirst.2⟩)
    (fun _ _ _ _ => leavesFiles_of_exec) hp

theorem only_stashOrAbort : stashOrAbort.run.Only BeforePin := by
  refine only_bind (only_onError (only_attempt trivial) (only_ignoreError (only_attempt trivial)))
    fun stash => ?_
  cases stash with
  | none => exact only_bind (only_ignoreError (only_attempt trivial)) fun _ => trivial
  | some oid => trivial

/-- The commit of the staged files, or an error. -/
theorem runs_stashOrAbort {r : Except SnapshotError GitOid}
    (h : Prog.Runs (SnapshotOp.exec env) stashOrAbort.run w (.done r) w') :
    (∃ e, r = .error e) ∨ ∃ oid indexOid indexed stashed, r = .ok oid ∧
      w.commits.Adds indexOid ⟨w.writeIndexTree, [w.head]⟩ indexed ∧
      NodeStore.Adds indexed oid ⟨w.writeIndexTree, [w.head, indexOid]⟩ stashed ∧
      w' = { w with commits := stashed } := by
  rcases runs_bind_cases h with ⟨stash, w₁, hfirst, hrest⟩ | ⟨e, -, rfl⟩
  · have hexec := returns_attempt.mp (returns_onError.mp hfirst)
    cases stash with
    | none =>
      rcases runs_bind_cases hrest with ⟨_, w₂, -, hthrow⟩ | ⟨e, -, rfl⟩
      · obtain ⟨heq, -⟩ := runs_done hthrow
        exact Or.inl ⟨.silentDataLoss, Prog.done.inj heq⟩
      · exact Or.inl ⟨e, rfl⟩
    | some oid =>
      obtain ⟨heq, rfl⟩ := runs_done hrest
      rcases hexec with ⟨herror, -⟩ | ⟨hnone, -⟩ | ⟨-, indexOid, stashOid, indexed, stashed,
        hindexed, hstashed, hok, rfl⟩
      · cases herror
      · cases hnone
      · cases hok
        exact Or.inr ⟨oid, indexOid, indexed, stashed, Prog.done.inj heq, hindexed, hstashed, rfl⟩
  · exact Or.inl ⟨e, rfl⟩

theorem headTree_of_adds {commits commits' : WorkCommits} {oid : GitOid} {commit : WorkCommit}
    {head : GitOid} (h : commits.Adds oid commit commits') (hparent : head ∈ commit.parents) :
    commits'.nodes.lookup head = commits.nodes.lookup head := by
  have hmem : head ∈ commits.nodes := by
    rcases h with ⟨hlookup, -⟩ | ⟨-, hparents, -⟩
    · exact commits.closed oid commit hlookup head hparent
    · exact hparents head hparent
  obtain ⟨node, hnode⟩ := Finmap.mem_iff.mp hmem
  rw [hnode, h.lookup hnode]

theorem resetFile_congr {w₁ w₂ : SnapshotWorld} (hhead : w₁.headTree = w₂.headTree)
    (hindex : w₁.index = w₂.index) (hdisk : w₁.disk = w₂.disk) (p : RelaPath) :
    w₁.resetFile p = w₂.resetFile p := by
  have hway (occupant : Occupant) : w₁.InTheWay p occupant ↔ w₂.InTheWay p occupant := by
    rw [SnapshotWorld.InTheWay, SnapshotWorld.InTheWay, hhead]
  rw [SnapshotWorld.resetFile, SnapshotWorld.resetFile, hhead, hdisk]
  cases w₂.headTree.lookup p with
  | some e => rfl
  | none =>
    refine congrArg (Option.filter · _) (funext fun occupant => decide_eq_decide.mpr ?_)
    rw [hway, hindex]

/-- What a reset leaves after the pin. -/
theorem afterReset_of_exec {w₀ w₁ : SnapshotWorld} {r : Except SnapshotError Unit}
    (hhead : w₀.headTree = w.headTree) (hindex : w₀.index = (ready env w).index)
    (hdisk : w₀.disk = w.disk) (h : SnapshotOp.exec env .resetHard w₀ r w₁) :
    AfterReset env w w₁ := by
  have hhead' : w₀.headTree = (ready env w).headTree := hhead
  have hfile (p : RelaPath) : w₀.resetFile p = (ready env w).resetFile p :=
    resetFile_congr hhead' hindex hdisk p
  rcases h with ⟨disk, -, rfl, hreset⟩ | ⟨disk, -, rfl, hreset⟩
  · refine ⟨fun p => ?_, Or.inl hindex⟩
    rw [← hfile, ← hdisk]
    exact hreset p
  · refine ⟨fun p => Or.inr ?_, Or.inr ?_⟩
    · rw [← hfile]
      exact hreset p
    · refine Finmap.ext_lookup fun p => ?_
      rw [lookup_headIndex, lookup_headIndex, hhead]

/-- How a snapshot ends. -/
theorem runs_snapshot {r : Except SnapshotError (Option GitOid)}
    (h : Prog.Runs (SnapshotOp.exec env) snapshotWorkingCopy.run w (.done r) w') :
    (∃ e, r = .error e ∧ LeavesFiles w w') ∨
    (r = .ok none ∧ w' = w ∧ ∃ items, Emits (w.statusRepo env) items ∧
      statusHeadToWorktree (env.rules w.disk).build items = []) ∨
    ∃ oid, r = .ok (some oid) ∧ w'.refs = w.refs.insert (snapshotRefName env) oid ∧
      (env.unstageFails = false →
        (w'.commits.nodes.lookup oid).map WorkCommit.tree = some (ready env w).writeIndexTree ∧
        ∃ w₁, AfterReset env w w₁ ∧
          ∀ p, w'.disk.lookup p = w₁.disk.lookup p ∨
            w₁.Cleaned env p ∧ w'.disk.lookup p = none) := by
  rcases runs_attempt_bind h with ⟨entries, w₀, ⟨rfl, hstatus⟩, hgo⟩ | ⟨e, ⟨rfl, -⟩, rfl⟩
  swap
  · exact Or.inl ⟨e, rfl, rfl, rfl⟩
  split_ifs at hgo with hclean
  · obtain ⟨heq, rfl⟩ := runs_done hgo
    obtain herror | ⟨items, hemits, hitems⟩ := hstatus
    · cases herror
    · refine Or.inr (Or.inl ⟨Prog.done.inj heq, rfl, items, hemits, ?_⟩)
      rw [← Except.ok.inj hitems, hclean]
  · obtain ⟨_, w₁, ⟨rfl, -⟩, hgo₁⟩ := runs_ignoreError_bind hgo
    rcases runs_attempt_bind hgo₁ with ⟨_, w₂, hadd, hgo₂⟩ | ⟨e, hadd, rfl⟩
    swap
    · exact Or.inl ⟨e, rfl, leavesFiles_of_exec (show BeforePin .addAll from trivial) hadd⟩
    rcases hadd with ⟨herror, -⟩ | ⟨-, hrefused, rfl⟩
    · cases herror
    obtain ⟨_, w₂, hunstage, hgo₃⟩ := runs_ignoreError_bind hgo₂
    have hleaves : LeavesFiles w₁ w₂ := by
      have hstaged := leavesFiles_of_exec (show BeforePin .unstageAdmin from trivial) hunstage
      exact hstaged
    have hready : env.unstageFails = false → w₂ = ready env w₁ := by
      intro hunstages
      rcases hunstage with ⟨hfails, -⟩ | ⟨-, hready⟩
      · rw [hunstages] at hfails
        cases hfails
      · exact hready
    rcases runs_bind_cases hgo₃ with ⟨oid, w₃, hstash, hgo₄⟩ | ⟨e, hstash, rfl⟩
    swap
    · have hleaves' := leavesFiles_of_runs only_stashOrAbort hstash
      exact Or.inl ⟨e, rfl, hleaves'.1.trans hleaves.1, hleaves'.2.trans hleaves.2⟩
    rcases runs_stashOrAbort hstash with ⟨e, herror⟩ | ⟨_, indexOid, indexed, stashed, hok,
      hindexed, hstashed, rfl⟩
    · cases herror
    cases hok
    rcases runs_attempt_bind hgo₄ with ⟨_, w₄, hwrite, hgo₅⟩ | ⟨e, hwrite, rfl⟩
    swap
    · rcases hwrite with ⟨-, rfl⟩ | ⟨herror, -⟩
      · exact Or.inl ⟨e, rfl, hleaves⟩
      · cases herror
    rcases hwrite with ⟨herror, -⟩ | ⟨-, rfl⟩
    · cases herror
    obtain ⟨r₃, w₄, hreset, hgo₆⟩ := runs_ignoreError_bind hgo₅
    obtain ⟨r₄, w₅, ⟨disk, rfl, hremoved, -⟩, hgo₇⟩ := runs_ignoreError_bind hgo₆
    obtain ⟨heq, rfl⟩ := runs_done hgo₇
    have hkept : w₄.commits = stashed ∧ w₄.refs = w₁.refs.insert (snapshotRefName env) oid := by
      rw [← hleaves.2]
      rcases hreset with ⟨_, -, rfl, -⟩ | ⟨_, -, rfl, -⟩
      · exact ⟨rfl, rfl⟩
      · exact ⟨rfl, rfl⟩
    refine Or.inr (Or.inr ⟨oid, Prog.done.inj heq, hkept.2, fun hunstages => ?_⟩)
    obtain rfl := hready hunstages
    have hhead : stashed.nodes.lookup (ready env w₁).head = w₁.commits.nodes.lookup w₁.head :=
      (headTree_of_adds hstashed List.mem_cons_self).trans
        (headTree_of_adds hindexed List.mem_cons_self)
    refine ⟨?_, w₄, ?_, hremoved⟩
    · rw [hkept.1, hstashed.lookup_self]
      rfl
    · refine afterReset_of_exec ?_ ?_ ?_ hreset
      · rw [SnapshotWorld.headTree, SnapshotWorld.headTree, hhead]
      · rfl
      · rfl

/-- A snapshot that takes all its steps. -/
theorem runs_of_steps {entries : List (Path × FileStatus)} {w₁ w₂ w₃ w₄ w₅ w₆ : SnapshotWorld}
    {oid : GitOid} {r₀ : Except SnapshotError (Option GitOid)}
    {r₁ r₂ r₃ : Except SnapshotError Unit}
    (hstatus : SnapshotOp.exec env .status w (.ok entries) w) (hne : entries ≠ [])
    (hread : SnapshotOp.exec env .readRef w r₀ w) (hadd : SnapshotOp.exec env .addAll w (.ok ()) w₁)
    (hunstage : SnapshotOp.exec env .unstageAdmin w₁ r₁ w₂)
    (hstash : SnapshotOp.exec env .stashCreate w₂ (.ok (some oid)) w₃)
    (hwrite : SnapshotOp.exec env (.writeRef oid) w₃ (.ok ()) w₄)
    (hreset : SnapshotOp.exec env .resetHard w₄ r₂ w₅)
    (hclean : SnapshotOp.exec env .clean w₅ r₃ w₆) :
    Prog.Runs (SnapshotOp.exec env) snapshotWorkingCopy.run w (.done (.ok (some oid))) w₆ := by
  refine attempt_bind_runs hstatus ?_
  rw [if_neg hne]
  refine ignoreError_bind_runs hread (attempt_bind_runs hadd (ignoreError_bind_runs hunstage ?_))
  have hstashed : Returns (SnapshotOp.exec env) stashOrAbort w₂ oid w₃ :=
    returns_bind.mpr ⟨some oid, w₃, returns_onError.mpr (returns_attempt.mpr hstash),
      returns_pure.mpr ⟨rfl, rfl⟩⟩
  refine hstashed.bind_runs (attempt_bind_runs hwrite ?_)
  exact ignoreError_bind_runs hreset (ignoreError_bind_runs hclean (.refl _ _))

end Runs

/-! ### What a snapshot is safe for -/

section Safe

variable (env : SnapshotEnv) (w : SnapshotWorld)

/-- A snapshot that succeeds has every path that is changed, and leaves the directories of git and
of the workspaces; without one the worktree is clean; an error leaves the files. -/
def SnapshotSafe (r : Except SnapshotError (Option GitOid)) (w' : SnapshotWorld) : Prop :=
  match r with
  | .error _ => w'.disk = w.disk
  | .ok none => w' = w ∧ ∀ p, ¬ (w.statusRepo env).Differs p
  | .ok (some oid) => w'.refs.lookup (snapshotRefName env) = some oid ∧
      (∃ tree, (w'.commits.nodes.lookup oid).map WorkCommit.tree = some tree ∧
        ∀ p, Keeps w tree w'.disk p) ∧
      ∀ p, isAdmin p = true → w'.disk.lookup p = w.disk.lookup p

variable {env w} {w' : SnapshotWorld}

/-- An empty status is that of a clean worktree. -/
theorem clean_of_status (h : SnapshotHeeds env w) {items : List Item}
    (hemits : Emits (w.statusRepo env) items)
    (hempty : statusHeadToWorktree (env.rules w.disk).build items = []) (p : RelaPath) :
    ¬ (w.statusRepo env).Differs p := by
  intro hdiffers
  obtain ⟨text, htext⟩ := Option.ne_none_iff_exists'.mp (h.text p hdiffers)
  obtain rfl := toStr_eq_some.mp htext
  obtain ⟨k, hk⟩ := reported_of_shown hemits (h.shown text) hdiffers
  have hk' : (text, k) ∈ statusHeadToWorktree (env.rules w.disk).build items := hk
  rw [hempty] at hk'
  exact List.not_mem_nil hk'

/-- A snapshot loses nothing. -/
theorem snapshotSafe_of_runs (h : SnapshotHeeds env w)
    {r : Except SnapshotError (Option GitOid)}
    (hrun : Prog.Runs (SnapshotOp.exec env) snapshotWorkingCopy.run w (.done r) w') :
    SnapshotSafe env w r w' := by
  rcases runs_snapshot hrun with ⟨e, rfl, hleaves⟩ | ⟨rfl, rfl, items, hemits, hempty⟩ |
    ⟨oid, rfl, hrefs, hkept⟩
  · exact hleaves.1
  · exact ⟨rfl, clean_of_status h hemits hempty⟩
  · obtain ⟨htree, w₁, hafter, hclean⟩ := hkept h.unstages
    refine ⟨?_, ⟨_, htree, keeps_of_afterReset h hafter hclean⟩,
      fun p => admin_of_afterReset h hafter hclean⟩
    rw [hrefs]
    exact Finmap.lookup_insert _

end Safe

/-! ### The snapshots of a workspace -/

section History

/-- The edits of a snapshot are back in the worktree. -/
def isBack : Except SnapshotError (List Path) → Bool
  | .ok [] => true
  | _ => false

/-- The snapshots that are taken of a workspace, and whether their edits are back. Between them the
workspace and the other refs change as they like. -/
inductive History (env : SnapshotEnv) (start : SnapshotWorld) :
    SnapshotWorld → List (GitOid × Bool) → Prop
  | start : History env start start []
  | edit {w w' : SnapshotWorld} {taken : List (GitOid × Bool)} (h : History env start w taken)
      (hrefs : w'.refs.lookup (snapshotRefName env) = w.refs.lookup (snapshotRefName env))
      (hcommits : w.commits.Grows w'.commits) : History env start w' taken
  | failed {w w' : SnapshotWorld} {taken : List (GitOid × Bool)} {e : SnapshotError}
      (h : History env start w taken)
      (hrun : Prog.Runs (SnapshotOp.exec env) snapshotWorkingCopy.run w (.done (.error e)) w') :
      History env start w' taken
  | clean {w w₁ w' : SnapshotWorld} {taken : List (GitOid × Bool)}
      {r : Except SnapshotError (List Path)} (h : History env start w taken)
      (hrun : Prog.Runs (SnapshotOp.exec env) snapshotWorkingCopy.run w (.done (.ok none)) w₁)
      (hrest : Prog.Runs (SnapshotOp.exec env) (checkoutAndReplay none).run w₁ (.done r) w') :
      History env start w' taken
  | taken {w w₁ w' : SnapshotWorld} {taken : List (GitOid × Bool)} {oid : GitOid}
      {r : Except SnapshotError (List Path)} (h : History env start w taken)
      (hrun : Prog.Runs (SnapshotOp.exec env) snapshotWorkingCopy.run w (.done (.ok (some oid))) w₁)
      (hrest : Prog.Runs (SnapshotOp.exec env) (checkoutAndReplay (some oid)).run w₁ (.done r) w') :
      History env start w' (taken ++ [(oid, isBack r)])

variable {env : SnapshotEnv} {start w w' : SnapshotWorld} {taken : List (GitOid × Bool)}
  {oid : GitOid}

/-- The ref of the workspace is left. -/
def LeavesRef (env : SnapshotEnv) (w w' : SnapshotWorld) : Prop :=
  w'.refs.lookup (snapshotRefName env) = w.refs.lookup (snapshotRefName env)

/-- The operations that neither pin nor drop a snapshot. -/
def AfterPin : SnapshotOp → Prop
  | .checkoutDetach | .writeEpochRef | .stashApply _ | .detectConflicts | .unstageAll => True
  | _ => False

theorem leavesRef_of_exec {op : SnapshotOp} {r : Except SnapshotError op.Ret} (hop : AfterPin op)
    (h : op.exec env w r w') : LeavesRef env w w' := by
  cases op with
  | checkoutDetach | stashApply _ => exact congrArg (Finmap.lookup _) h.1
  | detectConflicts =>
    obtain rfl := h
    rfl
  | unstageAll =>
    have hleaves : LeavesFiles w w' :=
      leavesFiles_of_exec (show BeforePin .unstageAll from trivial) h
    exact congrArg (Finmap.lookup _) hleaves.2
  | writeEpochRef =>
    obtain ⟨-, -, -, -, name, oid, hname, hrefs | hrefs⟩ := h
    · exact congrArg (Finmap.lookup _) hrefs
    · rw [LeavesRef, hrefs, FiniteMap.lookup_insert, if_neg hname.symm]
  | _ => exact hop.elim

theorem leavesRef_of_runs {α : Type} {p : SnapshotProg α} (hp : p.run.Only AfterPin)
    {q : Prog SnapshotOp (fun op => Except SnapshotError op.Ret) (Except SnapshotError α)}
    (h : Prog.Runs (SnapshotOp.exec env) p.run w q w') : LeavesRef env w w' :=
  h.frame (T := LeavesRef env) (fun _ => rfl) (fun _ _ _ hfirst hrest => hrest.trans hfirst)
    (fun _ _ _ _ => leavesRef_of_exec) hp

theorem only_replaySnapshot (oid : GitOid) : (replaySnapshot oid).run.Only AfterPin := by
  refine only_bind (only_asOption (only_attempt trivial)) fun applied => ?_
  cases applied with
  | some _ => exact only_bind (only_ignoreError (only_attempt trivial)) fun _ => trivial
  | none =>
    refine only_bind (only_attempt trivial) fun conflicts => ?_
    split_ifs <;> trivial

/-- The ref of a snapshot whose edits are not back is left. -/
theorem leavesRef_of_checkoutAndReplay {r : Except SnapshotError (List Path)}
    (h : Prog.Runs (SnapshotOp.exec env) (checkoutAndReplay (some oid)).run w (.done r) w')
    (hback : isBack r = false) : LeavesRef env w w' := by
  rcases runs_attempt_bind h with ⟨_, w₁, hcheckout, hgo⟩ | ⟨e, hcheckout, -⟩
  swap
  · exact leavesRef_of_exec (show AfterPin .checkoutDetach from trivial) hcheckout
  have hfirst : LeavesRef env w w₁ :=
    leavesRef_of_exec (show AfterPin .checkoutDetach from trivial) hcheckout
  obtain ⟨_, w₂, hepoch, hgo₁⟩ := runs_ignoreError_bind hgo
  have hsecond : LeavesRef env w₁ w₂ :=
    leavesRef_of_exec (show AfterPin .writeEpochRef from trivial) hepoch
  have hthird : LeavesRef env w₂ w' := by
    rcases runs_bind_cases hgo₁ with ⟨conflicts, w₃, hreplay, hgo₂⟩ | ⟨e, hreplay, -⟩
    swap
    · exact leavesRef_of_runs (only_replaySnapshot oid) hreplay
    have hreplayed : LeavesRef env w₂ w₃ := leavesRef_of_runs (only_replaySnapshot oid) hreplay
    split_ifs at hgo₂ with hconflicts
    · obtain ⟨_, w₄, -, hgo₃⟩ := runs_ignoreError_bind hgo₂
      obtain ⟨heq, -⟩ := runs_done hgo₃
      obtain rfl := Prog.done.inj heq
      cases hback
    · obtain ⟨-, rfl⟩ := runs_done hgo₂
      exact hreplayed
  exact hthird.trans (hsecond.trans hfirst)

theorem leavesRef_of_clean {r : Except SnapshotError (List Path)}
    (h : Prog.Runs (SnapshotOp.exec env) (checkoutAndReplay none).run w (.done r) w') :
    LeavesRef env w w' := by
  refine leavesRef_of_runs ?_ h
  refine only_bind (only_attempt trivial) fun _ => ?_
  exact only_bind (only_ignoreError (only_attempt trivial)) fun _ => trivial

/-- The last snapshot is under the ref of the workspace until its edits are back. -/
theorem last_snapshot_kept (h : History env start w taken) {before : List (GitOid × Bool)}
    (htaken : taken = before ++ [(oid, false)]) :
    w.refs.lookup (snapshotRefName env) = some oid := by
  induction h generalizing before with
  | start =>
    have hlength := congrArg List.length htaken
    simp at hlength
  | edit h hrefs hcommits ih => exact hrefs.trans (ih htaken)
  | failed h hrun ih =>
    rcases runs_snapshot hrun with ⟨e, -, hleaves⟩ | ⟨hnone, -⟩ | ⟨oid', hsome, -⟩
    · rw [hleaves.2]
      exact ih htaken
    · cases hnone
    · cases hsome
  | clean h hrun hrest ih =>
    rcases runs_snapshot hrun with ⟨e, herror, -⟩ | ⟨-, rfl, -⟩ | ⟨oid', hsome, -⟩
    · cases herror
    · exact (leavesRef_of_clean hrest).trans (ih htaken)
    · cases hsome
  | taken h hrun hrest ih =>
    obtain ⟨-, hlast⟩ := List.append_inj' htaken rfl
    obtain ⟨rfl, hback⟩ := Prod.mk.inj (List.singleton_inj.mp hlast)
    rcases runs_snapshot hrun with ⟨e, herror, -⟩ | ⟨hnone, -⟩ | ⟨oid', hsome, hrefs, -⟩
    · cases herror
    · cases hnone
    · cases hsome
      rw [leavesRef_of_checkoutAndReplay hrest hback, hrefs]
      exact Finmap.lookup_insert _

/-- A snapshot loses no edit, and the last one is kept until its edits are back. -/
theorem snapshot_keeps_edits (env : SnapshotEnv) :
    (∀ (w w' : SnapshotWorld) (r : Except SnapshotError (Option GitOid)), SnapshotHeeds env w →
      Prog.Runs (SnapshotOp.exec env) snapshotWorkingCopy.run w (.done r) w' →
        SnapshotSafe env w r w') ∧
    ∀ (start w : SnapshotWorld) (before : List (GitOid × Bool)) (oid : GitOid),
      History env start w (before ++ [(oid, false)]) →
        w.refs.lookup (snapshotRefName env) = some oid :=
  ⟨fun _ _ _ h hrun => snapshotSafe_of_runs h hrun, fun _ _ _ _ h => last_snapshot_kept h rfl⟩

end History

/-! ### Two snapshots in a row -/

section Sample

/-- Nothing is ignored. -/
def sampleRules : IgnoreRules where
  gitignore _ _ := none
  commonExclude _ _ _ := none
  worktreeExclude _ _ := none
  globalExcludes _ _ := none
  case := .sensitive
  linked := false

def sampleEnv : SnapshotEnv := ⟨"alice", fun _ => sampleRules, false⟩

/-- A commit without files. -/
def emptyCommits : WorkCommits := NodeStore.empty.add (sampleBlob 1) ⟨∅, []⟩ (by decide) (by decide)

/-- A worktree with an untracked file. -/
def sampleWorld (refs : RefStore) (commits : WorkCommits) (blob : GitOid) : SnapshotWorld where
  refs := refs
  commits := commits
  head := sampleBlob 1
  index := ∅
  disk := Finmap.singleton (ofPath samplePath) (.regular blob)

variable {refs : RefStore} {commits : WorkCommits} {blob : GitOid} {p : RelaPath}

theorem lookup_sampleWorld (refs : RefStore) (commits : WorkCommits) :
    (sampleWorld refs commits blob).disk.lookup p =
      if p = ofPath samplePath then some (.regular blob) else none := by
  split_ifs with hp
  · rw [hp]
    exact Finmap.lookup_singleton_eq
  · exact Finmap.lookup_eq_none.mpr fun hmem => hp ((Finmap.mem_singleton _ _ _).mp hmem)

theorem sampleRules_ignored (files : Files) (p : RelaPath) :
    (sampleEnv.rules files).gitIgnored p = false := by
  simp [sampleEnv, IgnoreRules.gitIgnored, isIgnored, IgnoreRules.ranked, sampleRules]

theorem headTree_sample (hhead : commits.nodes.lookup (sampleBlob 1) = some ⟨∅, []⟩) :
    (sampleWorld refs commits blob).headTree = ∅ := by
  have hlookup : (sampleWorld refs commits blob).commits.nodes.lookup
      (sampleWorld refs commits blob).head = some ⟨∅, []⟩ := hhead
  rw [SnapshotWorld.headTree, hlookup]
  rfl

theorem untracked_sample :
    ((sampleWorld refs commits blob).statusRepo sampleEnv).Untracked p ↔ p = ofPath samplePath := by
  have hdisk : ((sampleWorld refs commits blob).statusRepo sampleEnv).disk.lookup p =
      if p = ofPath samplePath then some (.regular blob) else none :=
    lookup_sampleWorld refs commits
  rw [StatusRepo.Untracked, hdisk]
  constructor
  · rintro ⟨-, occupant, hthere, -⟩
    by_contra hp
    rw [if_neg hp] at hthere
    cases hthere
  · rintro rfl
    exact ⟨Finmap.lookup_empty _, .regular blob, if_pos rfl, Occupant.noConfusion⟩

theorem emits_sample (hhead : commits.nodes.lookup (sampleBlob 1) = some ⟨∅, []⟩) :
    Emits ((sampleWorld refs commits blob).statusRepo sampleEnv) againItems where
  change_justified := by simp [againItems]
  change_of_staged := by
    intro p k hk
    have htree : ((sampleWorld refs commits blob).statusRepo sampleEnv).head = ∅ :=
      headTree_sample hhead
    rw [StatusRepo.stagedStatus, htree] at hk
    cases hk
  summarized := by simp [againItems]
  exists_summary := by simp [Summarized, SnapshotWorld.statusRepo, sampleWorld]
  untracked_iff := by
    intro p
    have hignored : ((sampleWorld refs commits blob).statusRepo sampleEnv).rules.itemsIgnored p =
        false := sampleRules_ignored ∅ p
    rw [untracked_sample, and_iff_left hignored]
    simp [againItems]

theorem hidden_sample : StatusItems.hidden sampleRules p = false := by
  have hitems : sampleRules.itemsIgnored p = false := sampleRules_ignored ∅ p
  rw [StatusItems.hidden, hitems]
  rfl

/-- The file is reported. -/
theorem status_sample (refs : RefStore) (blob : GitOid)
    (hhead : commits.nodes.lookup (sampleBlob 1) = some ⟨∅, []⟩) :
    statusHeadToWorktree sampleRules.build againItems ≠ [] := by
  intro hempty
  have huntracked : ((sampleWorld refs commits blob).statusRepo sampleEnv).Untracked
      (ofPath samplePath) := untracked_sample.mpr rfl
  obtain ⟨k, hk⟩ := reported_of_shown (emits_sample hhead) (fun _ _ _ => hidden_sample)
    (Or.inr ⟨huntracked, sampleRules_ignored ∅ _⟩)
  have hk' : (samplePath, k) ∈ statusHeadToWorktree sampleRules.build againItems := hk
  rw [hempty] at hk'
  exact List.not_mem_nil hk'

/-- What is staged of the sample. -/
theorem ready_sample (hhead : commits.nodes.lookup (sampleBlob 1) = some ⟨∅, []⟩) :
    (ready sampleEnv (sampleWorld refs commits blob)).index.lookup p =
      if p = ofPath samplePath then some (.staged ⟨.blob, blob⟩) else none := by
  have hadmin : isAdmin (ofPath samplePath) = false := by decide
  have hadded (q : RelaPath) : (sampleWorld refs commits blob).IsAdded sampleEnv q :=
    Or.inr (sampleRules_ignored _ q)
  rw [lookup_ready, headTree_sample hhead, lookup_sampleWorld, if_pos (hadded p)]
  by_cases hp : p = ofPath samplePath
  · rw [hp, hadmin, if_neg Bool.false_ne_true, if_pos rfl, if_pos rfl]
    rfl
  · rw [if_neg hp, if_neg hp]
    split_ifs <;> rfl

/-- The reset removes the file of the sample. -/
theorem resetFile_sample {w : SnapshotWorld} (htree : w.headTree = ∅)
    (hindex : w.index.lookup p =
      if p = ofPath samplePath then some (.staged ⟨.blob, blob⟩) else none)
    (hdisk : w.disk.lookup p = if p = ofPath samplePath then some (.regular blob) else none) :
    w.resetFile p = none := by
  classical
  rw [SnapshotWorld.resetFile, htree, hdisk]
  by_cases hp : p = ofPath samplePath
  · rw [if_pos hp]
    refine Option.filter_eq_none_iff.mpr fun occupant hthere => ?_
    obtain rfl := Option.some.inj hthere
    rw [decide_eq_true_iff, hindex, if_pos hp]
    rintro ⟨-, hnone | hrepository⟩
    · cases hnone
    · cases hrepository
  · rw [if_neg hp]
    rfl

/-- A snapshot of the sample. -/
theorem runs_sample (hhead : commits.nodes.lookup (sampleBlob 1) = some ⟨∅, []⟩)
    {indexOid oid : GitOid} {indexed stashed : WorkCommits}
    (hindexed : commits.Adds indexOid
      ⟨(ready sampleEnv (sampleWorld refs commits blob)).writeIndexTree, [sampleBlob 1]⟩ indexed)
    (hstashed : NodeStore.Adds indexed oid
      ⟨(ready sampleEnv (sampleWorld refs commits blob)).writeIndexTree, [sampleBlob 1, indexOid]⟩
      stashed) :
    ∃ w', Prog.Runs (SnapshotOp.exec sampleEnv) snapshotWorkingCopy.run
      (sampleWorld refs commits blob) (.done (.ok (some oid))) w' ∧
        w'.refs = refs.insert (snapshotRefName sampleEnv) oid ∧ w'.commits = stashed := by
  have hstatus : SnapshotOp.exec sampleEnv .status (sampleWorld refs commits blob)
      (.ok (statusHeadToWorktree sampleRules.build againItems)) (sampleWorld refs commits blob) :=
    ⟨rfl, Or.inr ⟨againItems, emits_sample hhead, rfl⟩⟩
  have hread : SnapshotOp.exec sampleEnv .readRef (sampleWorld refs commits blob) (.error .git)
      (sampleWorld refs commits blob) := ⟨rfl, Or.inl rfl⟩
  have hrefused (p : RelaPath) : ¬ (sampleWorld refs commits blob).Refused sampleEnv p := by
    rw [SnapshotWorld.Refused, lookup_sampleWorld]
    split_ifs
    · rintro (⟨hrepository, -⟩ | ⟨hspecial, -⟩)
      · cases hrepository
      · cases hspecial
    · rintro (⟨hnone, -⟩ | ⟨hnone, -⟩)
      · cases hnone
      · cases hnone
  have hdirty : (ready sampleEnv (sampleWorld refs commits blob)).IsDirty := by
    refine ⟨ofPath samplePath, Or.inl ?_⟩
    rw [ready_sample hhead, if_pos rfl, ready_headTree, headTree_sample hhead]
    exact Option.some_ne_none _
  have hcreate : SnapshotOp.exec sampleEnv .stashCreate
      (ready sampleEnv (sampleWorld refs commits blob)) (.ok (some oid))
      { ready sampleEnv (sampleWorld refs commits blob) with commits := stashed } :=
    Or.inr (Or.inr ⟨hdirty, indexOid, oid, indexed, stashed, hindexed, hstashed, rfl, rfl⟩)
  let pinned : SnapshotWorld := { ready sampleEnv (sampleWorld refs commits blob) with
    commits := stashed
    refs := refs.insert (snapshotRefName sampleEnv) oid }
  let final : SnapshotWorld := { pinned with disk := ∅, index := pinned.headIndex }
  have htree : pinned.headTree = ∅ := by
    have hstored : stashed.nodes.lookup pinned.head = some ⟨∅, []⟩ :=
      hstashed.lookup (hindexed.lookup hhead)
    rw [SnapshotWorld.headTree, hstored]
    rfl
  have hfile (p : RelaPath) : pinned.resetFile p = none := by
    have hindex : (ready sampleEnv (sampleWorld refs commits blob)).index.lookup p =
        if p = ofPath samplePath then some (.staged ⟨.blob, blob⟩) else none := ready_sample hhead
    have hdisk : (sampleWorld refs commits blob).disk.lookup p =
        if p = ofPath samplePath then some (.regular blob) else none :=
      lookup_sampleWorld refs commits
    exact resetFile_sample htree hindex hdisk
  have hreset : SnapshotOp.exec sampleEnv .resetHard pinned (.ok ()) final := by
    refine Or.inr ⟨∅, rfl, rfl, fun p => ?_⟩
    rw [hfile]
    exact Finmap.lookup_empty _
  have hclean : SnapshotOp.exec sampleEnv .clean final (.ok ()) final :=
    ⟨∅, rfl, fun _ => Or.inl rfl, fun _ _ _ => rfl⟩
  exact ⟨final, runs_of_steps hstatus (status_sample refs blob hhead) hread
    (Or.inr ⟨rfl, hrefused, rfl⟩) (Or.inr ⟨rfl, rfl⟩) hcreate (Or.inr ⟨rfl, rfl⟩) hreset hclean,
    rfl, rfl⟩

/-- The checkout after a snapshot fails. -/
theorem runs_failed (w : SnapshotWorld) (oid : GitOid) :
    Prog.Runs (SnapshotOp.exec sampleEnv) (checkoutAndReplay (some oid)).run w
      (.done (.error .git)) w := by
  have hcheckout : SnapshotOp.exec sampleEnv .checkoutDetach w (.error .git) w := ⟨rfl, rfl⟩
  exact .step hcheckout (.refl _ _)

/-- Two commits on top of the first one. -/
theorem exists_adds (indexOid oid : GitOid) (hfirst : sampleBlob 1 ∈ commits.nodes)
    (hindex : indexOid ∉ commits.nodes) (hoid : oid ∉ commits.nodes) (hne : oid ≠ indexOid)
    (tree : Tree) :
    ∃ indexed stashed : WorkCommits, commits.Adds indexOid ⟨tree, [sampleBlob 1]⟩ indexed ∧
      NodeStore.Adds indexed oid ⟨tree, [sampleBlob 1, indexOid]⟩ stashed ∧
      ∀ k, k ∈ stashed.nodes ↔ k = oid ∨ k = indexOid ∨ k ∈ commits.nodes := by
  have hparents : ∀ j ∈ (⟨tree, [sampleBlob 1]⟩ : WorkCommit).parents, j ∈ commits.nodes := by
    simpa using hfirst
  have hoid' : oid ∉ (commits.add indexOid ⟨tree, [sampleBlob 1]⟩ hindex hparents).nodes := by
    rw [NodeStore.mem_add]
    exact not_or.mpr ⟨hne, hoid⟩
  have hparents' : ∀ j ∈ (⟨tree, [sampleBlob 1, indexOid]⟩ : WorkCommit).parents,
      j ∈ (commits.add indexOid ⟨tree, [sampleBlob 1]⟩ hindex hparents).nodes := by
    simp [NodeStore.mem_add, hfirst]
  exact ⟨commits.add indexOid _ hindex hparents, NodeStore.add _ oid _ hoid' hparents',
    NodeStore.adds_add, NodeStore.adds_add, fun k => by rw [NodeStore.mem_add, NodeStore.mem_add]⟩

/-- The sample loses nothing. -/
theorem heeds_sample : SnapshotHeeds sampleEnv (sampleWorld ∅ emptyCommits (sampleBlob 7)) where
  text := by
    have hhead : emptyCommits.nodes.lookup (sampleBlob 1) = some ⟨∅, []⟩ := Finmap.lookup_insert _
    have htree : (sampleWorld ∅ emptyCommits (sampleBlob 7)).headTree = ∅ := headTree_sample hhead
    rintro p (⟨hin, -⟩ | ⟨huntracked, -⟩)
    · rw [SnapshotWorld.statusRepo, htree] at hin
      exact hin.elim (absurd rfl) (absurd rfl)
    · rw [untracked_sample.mp huntracked, toStr_ofPath]
      exact Option.some_ne_none _
  shown _ _ _ _ := hidden_sample
  unstages := rfl
  admin p _ hin := by
    rw [headTree_sample (Finmap.lookup_insert _)] at hin
    exact absurd rfl hin
  clear p occupant hdisk hnot := by
    refine absurd ?_ hnot
    rw [lookup_sampleWorld] at hdisk
    split_ifs at hdisk with hp
    · subst hp
      refine ⟨by rw [toStr_ofPath]; exact Option.some_ne_none _, by decide,
        Or.inr (sampleRules_ignored _ _), ?_⟩
      rw [lookup_sampleWorld, if_pos rfl]
      rfl
  ignored p _ hignored := by
    rw [sampleRules_ignored] at hignored
    cases hignored

/-- The snapshot of the sample has its file. -/
theorem snapshot_keeps_edits_sample :
    ∃ w', Prog.Runs (SnapshotOp.exec sampleEnv) snapshotWorkingCopy.run
        (sampleWorld ∅ emptyCommits (sampleBlob 7)) (.done (.ok (some (sampleBlob 3)))) w' ∧
      SnapshotSafe sampleEnv (sampleWorld ∅ emptyCommits (sampleBlob 7))
        (.ok (some (sampleBlob 3))) w' ∧
      w'.refs.lookup (snapshotRefName sampleEnv) = some (sampleBlob 3) := by
  have hhead : emptyCommits.nodes.lookup (sampleBlob 1) = some ⟨∅, []⟩ := Finmap.lookup_insert _
  obtain ⟨indexed, stashed, hindexed, hstashed, -⟩ :=
    exists_adds (sampleBlob 2) (sampleBlob 3)
      (FiniteMap.mem_of_lookup hhead) (by decide) (by decide) (by decide)
      (ready sampleEnv (sampleWorld ∅ emptyCommits (sampleBlob 7))).writeIndexTree
  obtain ⟨w', hrun, -, -⟩ := runs_sample hhead hindexed hstashed
  have hhistory : History sampleEnv (sampleWorld ∅ emptyCommits (sampleBlob 7)) w'
      [(sampleBlob 3, false)] := .taken .start hrun (runs_failed w' _)
  obtain ⟨hsafe, hlast⟩ := snapshot_keeps_edits sampleEnv
  exact ⟨w', hrun, hsafe _ w' _ heeds_sample hrun, hlast _ w' [] _ hhistory⟩

/-- The first of two snapshots in a row is lost, if the edits of neither are back. -/
theorem not_snapshot_keeps_edits :
    ¬ ∀ (env : SnapshotEnv) (start w : SnapshotWorld) (taken : List (GitOid × Bool)),
      History env start w taken → ∀ oid, (oid, false) ∈ taken →
        ∃ name tip, w.refs.lookup name = some tip ∧ w.commits.IsAncestor oid tip := by
  intro h
  have hhead : emptyCommits.nodes.lookup (sampleBlob 1) = some ⟨∅, []⟩ := Finmap.lookup_insert _
  obtain ⟨indexed, stashed, hindexed, hstashed, hmem⟩ :=
    exists_adds (sampleBlob 2) (sampleBlob 3)
      (FiniteMap.mem_of_lookup hhead) (by decide) (by decide) (by decide)
      (ready sampleEnv (sampleWorld ∅ emptyCommits (sampleBlob 7))).writeIndexTree
  have hhead₁ : stashed.nodes.lookup (sampleBlob 1) = some ⟨∅, []⟩ :=
    hstashed.lookup (hindexed.lookup hhead)
  have hfresh (n : ℕ) (hn : sampleBlob n ≠ sampleBlob 3 ∧ sampleBlob n ≠ sampleBlob 2 ∧
      sampleBlob n ∉ emptyCommits.nodes) : sampleBlob n ∉ stashed.nodes := by
    rw [hmem]
    exact fun hor => hor.elim hn.1 fun hor => hor.elim hn.2.1 hn.2.2
  obtain ⟨w₁, hrun₁, hrefs₁, hcommits₁⟩ := runs_sample hhead hindexed hstashed
  obtain ⟨indexed', stashed', hindexed', hstashed', -⟩ :=
    exists_adds (sampleBlob 4) (sampleBlob 5)
      (FiniteMap.mem_of_lookup hhead₁) (hfresh 4 (by decide)) (hfresh 5 (by decide)) (by decide)
      (ready sampleEnv (sampleWorld w₁.refs stashed (sampleBlob 8))).writeIndexTree
  obtain ⟨w₂, hrun₂, hrefs₂, hcommits₂⟩ := runs_sample hhead₁ hindexed' hstashed'
  have hhistory : History sampleEnv (sampleWorld ∅ emptyCommits (sampleBlob 7)) w₂
      [(sampleBlob 3, false), (sampleBlob 5, false)] := by
    have hedit : History sampleEnv (sampleWorld ∅ emptyCommits (sampleBlob 7))
        (sampleWorld w₁.refs stashed (sampleBlob 8)) [(sampleBlob 3, false)] := by
      refine .edit (.taken .start hrun₁ (runs_failed w₁ _)) rfl ?_
      rw [hcommits₁]
      exact NodeStore.Grows.refl stashed
    exact .taken hedit hrun₂ (runs_failed w₂ _)
  obtain ⟨name, tip, hname, hancestor⟩ := h sampleEnv _ w₂ _ hhistory (sampleBlob 3)
    List.mem_cons_self
  have htip : tip = sampleBlob 5 := by
    rw [hrefs₂, hrefs₁, FiniteMap.lookup_insert, FiniteMap.lookup_insert] at hname
    split_ifs at hname
    · exact (Option.some.inj hname).symm
    · cases hname
  have hhead₂ : stashed'.nodes.lookup (sampleBlob 1) = some ⟨∅, []⟩ :=
    hstashed'.lookup (hindexed'.lookup hhead₁)
  -- The commits below the second snapshot are its index, HEAD and itself.
  have hclosed : ∀ i ∈ ({sampleBlob 5, sampleBlob 4, sampleBlob 1} : Set GitOid),
      ∀ j, stashed'.ParentOf j i →
        j ∈ ({sampleBlob 5, sampleBlob 4, sampleBlob 1} : Set GitOid) := by
    rintro i (rfl | rfl | rfl) j ⟨node, hnode, hj⟩
    · rw [hstashed'.lookup_self] at hnode
      cases hnode
      simp only [List.mem_cons, List.not_mem_nil, or_false] at hj
      rcases hj with rfl | rfl <;> simp
    · rw [hstashed'.lookup hindexed'.lookup_self] at hnode
      cases hnode
      simp only [List.mem_cons, List.not_mem_nil, or_false] at hj
      simp [hj]
    · rw [hhead₂] at hnode
      cases hnode
      cases hj
  rw [htip, hcommits₂] at hancestor
  have hbelow := hancestor.mem_of_closed hclosed (Or.inl rfl)
  rcases hbelow with heq | heq | heq
  · exact absurd heq (by decide)
  · exact absurd heq (by decide)
  · exact absurd heq (by decide)

end Sample

end Maw.SnapshotClean
