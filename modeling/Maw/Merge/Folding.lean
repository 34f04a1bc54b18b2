import Maw.Merge.Apply
import Maw.Merge.DiffExtract

/-!
# Folding patch sets into a conflict tree

What stays as it is when the patch sets of a workspace are applied one after another, and what
the patch set of a difference between two trees makes of the first of them.

## Main definitions

* `ConflictTree.Disjoint` — no path is settled and in conflict.
* `Keeps` — what changes of some paths leave alone.
* `LeadsTo` — a report of differences that tells all of another tree.

## Main results

* `applyPatchsets_keeps` — disjointness, the epoch, the paths that are not named and the divergent
  renames are kept.
* `applyUnilateralPatchset_diffPatchset` — the patch set of a difference leads to the other tree.
-/

namespace Maw

open PointwiseFold

/-! ### What is kept -/

/-- No path is settled and in conflict. -/
def ConflictTree.Disjoint (tree : ConflictTree) : Prop :=
  ∀ p, (tree.slot p).clean = none ∨ (tree.slot p).conflict = none

/-- A file that was renamed to several places. -/
def Conflict.IsDivergent : Conflict → Prop
  | divergentRename .. => True
  | _ => False

section Keeps

variable {tree tree' tree'' : ConflictTree} {change : FileChange} {names names' : List Path}

/-- What changes of some paths leave alone. -/
structure Keeps (names : List Path) (tree tree' : ConflictTree) : Prop where
  disjoint : tree.Disjoint → tree'.Disjoint
  baseEpoch : tree'.baseEpoch = tree.baseEpoch
  other : ∀ p ∉ names, tree'.slot p = tree.slot p
  divergent : ∀ p c, c.IsDivergent → tree.conflicts.lookup p = some c →
    p ∉ names ∧ tree'.conflicts.lookup p = some c

theorem Keeps.refl (tree : ConflictTree) : Keeps [] tree tree where
  disjoint h := h
  baseEpoch := rfl
  other _ _ := rfl
  divergent _ _ _ h := ⟨List.not_mem_nil, h⟩

theorem Keeps.trans (h : Keeps names tree tree') (h' : Keeps names' tree' tree'') :
    Keeps (names ++ names') tree tree'' where
  disjoint hdisjoint := h'.disjoint (h.disjoint hdisjoint)
  baseEpoch := h'.baseEpoch.trans h.baseEpoch
  other p hp := by
    rw [List.mem_append, not_or] at hp
    rw [h'.other p hp.2, h.other p hp.1]
  divergent p c hc hlookup := by
    obtain ⟨hp, hlookup⟩ := h.divergent p c hc hlookup
    obtain ⟨hp', hlookup⟩ := h'.divergent p c hc hlookup
    exact ⟨fun hmem => (List.mem_append.mp hmem).elim hp hp', hlookup⟩

/-- The entry and the conflict that a change leaves at its path are not both there. -/
theorem applySlot_disjoint {s s' : ConflictTree.Slot} (h : applySlot change s = .ok s')
    (hs : s.clean = none ∨ s.conflict = none) : s'.clean = none ∨ s'.conflict = none := by
  rcases hc : s.conflict with _ | conflict
  · rw [applySlot_of_none hc] at h
    exact .inr (settledSlot_conflict h)
  · have hclean : s.clean = none := hs.resolve_right (by simp [hc])
    rw [applySlot_of_some hc, hclean] at h
    cases conflict with
    | content p f base sides =>
      cases hk : change.kind with
      | deleted =>
        simp only [contestedSlot, hk, ExceptRun.pure_eq_ok] at h
        exact .inl (h ▸ rfl)
      | _ =>
        simp only [contestedSlot, hk, ExceptRun.bind_eq_ok] at h
        obtain ⟨blob, -, h⟩ := h
        split_ifs at h
        · exact .inl (ExceptRun.pure_eq_ok.mp h ▸ rfl)
        · exact .inr (ExceptRun.pure_eq_ok.mp h ▸ rfl)
    | addAdd p sides =>
      cases hk : change.kind with
      | deleted =>
        simp only [contestedSlot, hk, ExceptRun.pure_eq_ok] at h
        exact .inl (h ▸ rfl)
      | modified => simp [contestedSlot, hk] at h
      | added =>
        simp only [contestedSlot, hk, ExceptRun.bind_eq_ok] at h
        obtain ⟨blob, -, h⟩ := h
        split_ifs at h
        · exact .inl (ExceptRun.pure_eq_ok.mp h ▸ rfl)
        · exact .inr (ExceptRun.pure_eq_ok.mp h ▸ rfl)
    | modifyDelete p f modifier deleter content renameHint dfHint =>
      cases hk : change.kind with
      | deleted =>
        simp only [contestedSlot, hk, ExceptRun.pure_eq_ok] at h
        exact .inl (h ▸ rfl)
      | _ =>
        simp only [contestedSlot, hk, ExceptRun.bind_eq_ok, ExceptRun.pure_eq_ok] at h
        obtain ⟨blob, -, h⟩ := h
        exact .inl (h ▸ rfl)
    | divergentRename f original destinations => simp [contestedSlot] at h

/-- A change at a divergent rename is refused. -/
theorem applySlot_ne_ok_of_isDivergent {s s' : ConflictTree.Slot} {c : Conflict}
    (hs : s.conflict = some c) (hc : c.IsDivergent) : applySlot change s ≠ .ok s' := by
  intro h
  rw [applySlot_of_some hs] at h
  cases c with
  | divergentRename f original destinations => simp [contestedSlot] at h
  | _ => exact hc

theorem keeps_applyOne (h : applyOne tree change = .ok tree') : Keeps [change.path] tree tree' := by
  have hat := applyOne_at h
  have hother (p : Path) (hp : p ≠ change.path) : tree'.slot p = tree.slot p :=
    hat.other p hp.symm
  refine ⟨fun hdisjoint p => ?_, hat.baseEpoch, fun p hp => hother p (by simpa using hp),
    fun p c hc hlookup => ?_⟩
  · by_cases hp : p = change.path
    · rw [hp]
      exact applySlot_disjoint hat.self (hdisjoint change.path)
    · rw [hother p hp]
      exact hdisjoint p
  · have hne : p ≠ change.path := by
      rintro rfl
      exact applySlot_ne_ok_of_isDivergent hlookup hc hat.self
    refine ⟨by simpa using hne, ?_⟩
    rw [← ConflictTree.slot_conflict, hother p hne, ConflictTree.slot_conflict, hlookup]

theorem keeps_changes {changes : List FileChange} (h : changes.foldlM applyOne tree = .ok tree') :
    Keeps (changes.map (·.path)) tree tree' := by
  induction changes generalizing tree with
  | nil =>
    rw [List.foldlM_nil, ExceptRun.pure_eq_ok] at h
    exact h ▸ .refl tree
  | cons change changes ih =>
    rw [List.foldlM_cons, ExceptRun.bind_eq_ok] at h
    obtain ⟨next, hnext, hrest⟩ := h
    exact (keeps_applyOne hnext).trans (ih hrest)

theorem keeps_applyUnilateralPatchset {patch : PatchSet}
    (h : applyUnilateralPatchset tree patch = .ok tree') :
    Keeps (patch.changes.map (·.path)) tree tree' :=
  keeps_changes (applyUnilateralPatchset_eq_ok.mp h).2

theorem keeps_patchsets {patches : List PatchSet}
    (h : patches.foldlM applyUnilateralPatchset tree = .ok tree') :
    Keeps (patches.flatMap fun patch => patch.changes.map (·.path)) tree tree' := by
  induction patches generalizing tree with
  | nil =>
    rw [List.foldlM_nil, ExceptRun.pure_eq_ok] at h
    exact h ▸ .refl tree
  | cons patch patches ih =>
    rw [List.foldlM_cons, ExceptRun.bind_eq_ok] at h
    obtain ⟨next, hnext, hrest⟩ := h
    exact (keeps_applyUnilateralPatchset hnext).trans (ih hrest)

/-- Patch sets that are applied one after another keep the tree well formed, its epoch, the paths
that they do not name and the divergent renames; a patch set that names one of these fails. -/
theorem applyPatchsets_keeps {patches : List PatchSet} (hdisjoint : tree.Disjoint)
    (h : patches.foldlM applyUnilateralPatchset tree = .ok tree') :
    tree'.Disjoint ∧ (∀ p c, tree'.conflicts.lookup p = some c → c.path = p) ∧
      tree'.baseEpoch = tree.baseEpoch ∧
      (∀ p, (∀ patch ∈ patches, ∀ change ∈ patch.changes, change.path ≠ p) →
        tree'.slot p = tree.slot p) ∧
      (∀ p c, c.IsDivergent → tree.conflicts.lookup p = some c →
        tree'.conflicts.lookup p = some c) ∧
      ∀ patch : PatchSet, (∃ change ∈ patch.changes, ∃ c, c.IsDivergent ∧
        tree'.conflicts.lookup change.path = some c) →
          ∃ e, applyUnilateralPatchset tree' patch = .error e := by
  have hkeeps := keeps_patchsets h
  refine ⟨hkeeps.disjoint hdisjoint, tree'.keyed, hkeeps.baseEpoch, fun p hp => ?_,
    fun p c hc hlookup => (hkeeps.divergent p c hc hlookup).2, ?_⟩
  · refine hkeeps.other p fun hmem => ?_
    obtain ⟨patch, hpatch, hmem⟩ := List.mem_flatMap.mp hmem
    obtain ⟨change, hchange, heq⟩ := List.mem_map.mp hmem
    exact hp patch hpatch change hchange heq
  · rintro patch ⟨change, hchange, c, hc, hlookup⟩
    rcases happly : applyUnilateralPatchset tree' patch with e | tree''
    · exact ⟨e, rfl⟩
    · have hnot := ((keeps_applyUnilateralPatchset happly).divergent change.path c hc hlookup).1
      exact absurd (List.mem_map_of_mem hchange) hnot

end Keeps

/-! ### The patch set of a difference -/

namespace DiffEntry

/-- What a difference says of the second tree. -/
def Tells (new : GitTree) : DiffEntry → Prop
  | added p n | modified p _ n => new.lookup p = some n
  | deleted p _ => new.lookup p = none
  | renamed f p _ n => new.lookup f = none ∧ new.lookup p = some n

theorem Holds.tells {old new : GitTree} {e : DiffEntry} (h : e.Holds old new) : e.Tells new := by
  cases e with
  | added p n => exact h.2
  | modified p o n => exact h.2.1
  | deleted p o => exact h.2
  | renamed f p o n => exact ⟨h.2.1, h.2.2.2⟩

end DiffEntry

/-- A report that is right about the second tree and speaks of every path where the trees
differ; a file may be renamed onto another one. -/
structure LeadsTo (old new : GitTree) (entries : List DiffEntry) : Prop where
  tells : ∀ e ∈ entries, e.Tells new
  complete : ∀ p, old.lookup p ≠ new.lookup p → p ∈ entries.flatMap DiffEntry.paths

theorem IsDelta.leadsTo {old new : GitTree} {entries : List DiffEntry}
    (h : IsDelta old new entries) : LeadsTo old new entries where
  tells e he := (h.holds e he).tells
  complete := h.complete

/-- What a change says of the second tree. -/
structure FileChange.Tells (new : GitTree) (c : FileChange) : Prop where
  deleted : c.kind = .deleted → new.lookup c.path = none
  upsert : c.kind ≠ .deleted → ∃ n, new.lookup c.path = some n ∧ c.blob = some n.oid ∧
    c.mode = some n.mode

/-- The blobs of a tree can be read; a submodule has none. -/
def Readable (repo : Repo) (tree : GitTree) : Prop :=
  ∀ p e, tree.lookup p = some e → e.mode ≠ .commit → (repo.readBlob e.oid).isSome

section DiffPatchset

variable {repo : Repo} {old new : GitTree} {entries : List DiffEntry} {epoch : EpochId}

theorem exists_readContent (hread : Readable repo new) {p : Path} {n : MaterializedEntry}
    (hn : new.lookup p = some n) (modes : List EntryMode) (hmodes : n.mode ∈ modes) :
    ∃ content, readContent repo modes n.oid = .ok content := by
  rw [readContent]
  split_ifs with hcommit
  · exact ⟨none, rfl⟩
  · have hne : n.mode ≠ .commit := fun h => hcommit (h ▸ hmodes)
    obtain ⟨content, hcontent⟩ := Option.isSome_iff_exists.mp (hread p n hn hne)
    exact ⟨some content, by rw [hcontent]; rfl⟩

theorem exists_fileChangesFromEntry (hread : Readable repo new) {e : DiffEntry}
    (he : e.Tells new) : ∃ cs, fileChangesFromEntry repo e = .ok cs := by
  cases e with
  | added p n =>
    obtain ⟨content, hcontent⟩ := exists_readContent hread he [n.mode] (by simp)
    rw [fileChangesFromEntry, hcontent]
    exact ⟨_, rfl⟩
  | modified p o n =>
    obtain ⟨content, hcontent⟩ := exists_readContent hread he [n.mode, o.mode] (by simp)
    rw [fileChangesFromEntry, hcontent]
    exact ⟨_, rfl⟩
  | deleted p o => exact ⟨_, rfl⟩
  | renamed f p o n =>
    obtain ⟨content, hcontent⟩ := exists_readContent hread he.2 [n.mode, o.mode] (by simp)
    rw [fileChangesFromEntry, hcontent]
    exact ⟨_, rfl⟩

/-- The changes of a right difference are right. -/
theorem fileChangesFromEntry_tells {e : DiffEntry} {cs : List FileChange} (he : e.Tells new)
    (h : fileChangesFromEntry repo e = .ok cs) : ∀ c ∈ cs, c.Tells new := by
  intro c hc
  cases e with
  | deleted p o =>
    rw [fileChangesFromEntry, ExceptRun.pure_eq_ok] at h
    subst h
    rw [List.mem_singleton.mp hc]
    exact ⟨fun _ => he, fun h => absurd rfl h⟩
  | renamed f p o n =>
    rw [fileChangesFromEntry, ExceptRun.bind_eq_ok] at h
    obtain ⟨content, -, h⟩ := h
    rw [ExceptRun.pure_eq_ok] at h
    subst h
    rcases List.mem_pair.mp hc with rfl | rfl
    · exact ⟨fun _ => he.1, fun h => absurd rfl h⟩
    · exact ⟨fun h => (by cases h), fun _ => ⟨n, he.2, rfl, rfl⟩⟩
  | _ =>
    rw [fileChangesFromEntry, ExceptRun.bind_eq_ok] at h
    obtain ⟨content, -, h⟩ := h
    rw [ExceptRun.pure_eq_ok] at h
    subst h
    rw [List.mem_singleton.mp hc]
    exact ⟨fun h => (by cases h), fun _ => ⟨_, he, rfl, rfl⟩⟩

/-- The patch set of a right report can be extracted, and its changes are right. -/
theorem exists_diffPatchset (hread : Readable repo new) (hleads : LeadsTo old new entries)
    (w : WorkspaceId) (epoch : EpochId) :
    ∃ patch, diffPatchset repo entries w epoch = .ok patch ∧ patch.epoch = epoch ∧
      (∀ c ∈ patch.changes, c.Tells new) ∧
      ∀ p, old.lookup p ≠ new.lookup p → ∃ c ∈ patch.changes, c.path = p := by
  rcases hchanges : entries.mapM (fileChangesFromEntry repo) with e | changes
  · obtain ⟨entry, hentry, herror⟩ := ExceptRun.mapM_eq_error hchanges
    obtain ⟨cs, hcs⟩ := exists_fileChangesFromEntry hread (hleads.tells entry hentry)
    rw [hcs] at herror
    cases herror
  have hpatch : diffPatchset repo entries w epoch = .ok (PatchSet.new w epoch changes.flatten) := by
    rw [diffPatchset, hchanges]
    rfl
  refine ⟨_, hpatch, diffPatchset_epoch hpatch, fun c hc => ?_, fun p hp => ?_⟩
  · rw [(PatchSet.new_changes_perm w epoch changes.flatten).mem_iff, List.mem_flatten] at hc
    obtain ⟨cs, hcs, hc⟩ := hc
    obtain ⟨entry, hentry, hok⟩ := ExceptRun.exists_of_mem_mapM hchanges hcs
    exact fileChangesFromEntry_tells (hleads.tells entry hentry) hok c hc
  · have hmem := (diffPatchset_paths_perm hpatch).mem_iff.mpr (hleads.complete p hp)
    obtain ⟨c, hc, rfl⟩ := List.mem_map.mp hmem
    exact ⟨c, hc, rfl⟩

/-- A right change of a settled path leaves the entry of the second tree. -/
theorem exists_applyOne {tree : ConflictTree} {c : FileChange} (htells : c.Tells new)
    (hconflicts : tree.conflicts = ∅) :
    ∃ tree', applyOne tree c = .ok tree' ∧ tree'.conflicts = ∅ ∧
      ∀ p, tree'.clean.lookup p = if p = c.path then new.lookup p else tree.clean.lookup p := by
  have hnone : tree.conflicts.lookup c.path = none := by rw [hconflicts, Finmap.lookup_empty]
  by_cases hkind : c.kind = .deleted
  · refine ⟨applyDeleted tree c, ?_, hconflicts, fun p => ?_⟩
    · simp only [applyOne, hnone, hkind]
      rfl
    · rw [applyDeleted, ConflictTree.removeClean, FiniteMap.lookup_erase]
      split_ifs with hp
      · rw [hp, htells.deleted hkind]
      · rfl
  · obtain ⟨n, hn, hblob, hmode⟩ := htells.upsert hkind
    refine ⟨tree.insertClean c.path n, ?_, hconflicts, fun p => ?_⟩
    · have hrequire : c.requireBlob = .ok n.oid := requireBlob_eq_ok.mpr hblob
      simp only [applyOne, hnone]
      cases hk : c.kind with
      | deleted => exact absurd hk hkind
      | added =>
        simp only [applyAdded, hrequire, FileChange.inferModeForNewFile, hmode]
        rfl
      | modified =>
        simp only [applyModified, hrequire, FileChange.inferModeForNewFile, hmode]
        rcases tree.clean.lookup c.path with _ | entry
        · rfl
        · rfl
    · rw [ConflictTree.insertClean, FiniteMap.lookup_insert]
      split_ifs with hp
      · rw [hp, hn]
      · rfl

theorem exists_foldlM_applyOne {tree : ConflictTree} {changes : List FileChange}
    (htells : ∀ c ∈ changes, c.Tells new) (hconflicts : tree.conflicts = ∅) :
    ∃ tree', changes.foldlM applyOne tree = .ok tree' ∧ tree'.conflicts = ∅ ∧
      ∀ p, tree'.clean.lookup p =
        if ∃ c ∈ changes, c.path = p then new.lookup p else tree.clean.lookup p := by
  induction changes generalizing tree with
  | nil => exact ⟨tree, rfl, hconflicts, fun p => by simp⟩
  | cons c changes ih =>
    obtain ⟨next, hnext, hempty, hlookup⟩ :=
      exists_applyOne (htells c List.mem_cons_self) hconflicts
    obtain ⟨tree', hrest, hempty', hlookup'⟩ :=
      ih (fun c' hc' => htells c' (List.mem_cons_of_mem _ hc')) hempty
    refine ⟨tree', ?_, hempty', fun p => ?_⟩
    · rw [List.foldlM_cons, hnext]
      exact hrest
    · rw [hlookup', hlookup]
      by_cases hp : p = c.path
      · simp [hp]
      · simp [hp, Ne.symm hp]

/-- The patch set of a right difference between two trees, applied to the first one, leads to the
second one, without conflicts. -/
theorem applyUnilateralPatchset_diffPatchset (hread : Readable repo new)
    (hleads : LeadsTo old new entries) (w : WorkspaceId) (epoch : EpochId) :
    ∃ patch tree', diffPatchset repo entries w epoch = .ok patch ∧
      applyUnilateralPatchset { ConflictTree.new epoch with clean := old } patch = .ok tree' ∧
        tree'.conflicts = ∅ ∧ tree'.clean = new := by
  obtain ⟨patch, hpatch, hepoch, htells, hcomplete⟩ := exists_diffPatchset hread hleads w epoch
  obtain ⟨tree', hfold, hempty, hlookup⟩ :=
    exists_foldlM_applyOne htells
      (show ({ ConflictTree.new epoch with clean := old } : ConflictTree).conflicts = ∅ from rfl)
  refine ⟨patch, tree', hpatch, applyUnilateralPatchset_eq_ok.mpr ⟨hepoch, hfold⟩, hempty, ?_⟩
  refine Finmap.ext_lookup fun p => ?_
  rw [hlookup]
  split_ifs with hp
  · rfl
  · by_contra hne
    exact hp (hcomplete p hne)

end DiffPatchset

section Samples

private def renamedFrom : Path := ⟨[Component.lit "moved.rs"], by decide⟩

private def renamedTo : Path := ⟨[Component.lit "b"], by decide⟩

private def sourceTree : GitTree := (∅ : GitTree).insert renamedFrom ⟨.blob, sampleBlob 1⟩

private def targetTree : GitTree := (∅ : GitTree).insert renamedTo ⟨.blobExecutable, sampleBlob 2⟩

/-- A file is renamed, edited and made executable. -/
theorem applyUnilateralPatchset_rename : ∃ patch tree',
    diffPatchset sampleRepo
        [.renamed renamedFrom renamedTo ⟨.blob, sampleBlob 1⟩ ⟨.blobExecutable, sampleBlob 2⟩] ⟨"w"⟩
        ⟨sampleBlob 7⟩ = .ok patch ∧
      applyUnilateralPatchset { ConflictTree.new ⟨sampleBlob 7⟩ with clean := sourceTree } patch =
          .ok tree' ∧
        tree'.conflicts = ∅ ∧ tree'.clean = targetTree := by
  have hdelta : IsDelta sourceTree targetTree
      [.renamed renamedFrom renamedTo ⟨.blob, sampleBlob 1⟩ ⟨.blobExecutable, sampleBlob 2⟩] := by
    decide
  exact applyUnilateralPatchset_diffPatchset (fun _ _ _ _ => rfl) hdelta.leadsTo ⟨"w"⟩
    ⟨sampleBlob 7⟩

/-- A tree with a file that was renamed to two places. -/
private def divergentTree : ConflictTree :=
  (ConflictTree.new ⟨sampleBlob 7⟩).insertConflict (.divergentRename ⟨0⟩ renamedFrom [])

private def addTarget : PatchSet :=
  ⟨⟨"w"⟩, ⟨sampleBlob 7⟩, [⟨renamedTo, .added, none, none, some (sampleBlob 3), none⟩]⟩

/-- Another file is added; the divergent rename is kept. -/
theorem applyPatchsets_keeps_divergent : ∃ tree',
    [addTarget].foldlM applyUnilateralPatchset divergentTree = .ok tree' ∧ tree'.Disjoint ∧
      tree'.conflicts.lookup renamedFrom = some (.divergentRename ⟨0⟩ renamedFrom []) := by
  obtain ⟨tree', htree'⟩ : ∃ tree', [addTarget].foldlM applyUnilateralPatchset divergentTree =
      .ok tree' := ExceptRun.exists_ok (by decide +kernel)
  have hdisjoint : divergentTree.Disjoint := fun p =>
    .inl (show (∅ : GitTree).lookup p = none from Finmap.lookup_empty p)
  have hkeeps := applyPatchsets_keeps hdisjoint htree'
  refine ⟨tree', htree', hkeeps.1, ?_⟩
  exact hkeeps.2.2.2.2.1 renamedFrom (.divergentRename ⟨0⟩ renamedFrom []) trivial rfl

end Samples

end Maw
