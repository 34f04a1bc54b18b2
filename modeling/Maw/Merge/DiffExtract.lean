import Maw.Core.Repo
import Maw.Library.ExceptRun
import Maw.Library.PointwiseFold

/-!
# Patch sets from tree differences

The git backend compares two trees and reports additions, modifications, deletions and
renames. The extraction turns the report into the changes of a patch set; a rename becomes a
deletion of its source and a modification of its destination with one file identity.

## Main definitions

* `DiffEntry`, `IsDelta` — a report, and when it is right about two trees.
* `diffPatchset` — the patch set of a report.
* `FileChange.Reflects` — what a change says about the two trees.

## Main results

* `diffPatchset_nodup` — a patch set has one change for each path.
* `diffPatchset_reflects` — its changes are right about the two trees.
* `diffPatchset_itemAt_eq_none` — it has no change exactly where the trees agree.
-/

open PointwiseFold

namespace Maw

/-- One difference between two trees; a rename carries its source. -/
inductive DiffEntry
  | added (path : Path) (new : MaterializedEntry)
  | modified (path : Path) (old new : MaterializedEntry)
  | deleted (path : Path) (old : MaterializedEntry)
  | renamed (source path : Path) (old new : MaterializedEntry)
  deriving DecidableEq, Repr

namespace DiffEntry

/-- The paths that a difference speaks about. -/
def paths : DiffEntry → List Path
  | added p _ | modified p _ _ | deleted p _ => [p]
  | renamed f p _ _ => [f, p]

/-- A difference is right about two trees. -/
def Holds (old new : GitTree) : DiffEntry → Prop
  | added p n => old.lookup p = none ∧ new.lookup p = some n
  | modified p o n => old.lookup p = some o ∧ new.lookup p = some n ∧ o ≠ n
  | deleted p o => old.lookup p = some o ∧ new.lookup p = none
  | renamed f p o n =>
    old.lookup f = some o ∧ new.lookup f = none ∧ old.lookup p = none ∧ new.lookup p = some n

instance (old new : GitTree) : ∀ e : DiffEntry, Decidable (e.Holds old new)
  | added .. | modified .. | deleted .. | renamed .. => inferInstanceAs (Decidable (_ ∧ _))

theorem Holds.lookup_ne {old new : GitTree} {e : DiffEntry} (h : e.Holds old new) {p : Path}
    (hp : p ∈ e.paths) : old.lookup p ≠ new.lookup p := by
  cases e with
  | added q n =>
    obtain ⟨hold, hnew⟩ := h
    rw [List.mem_singleton.mp hp, hold, hnew]
    exact Option.some_ne_none n |>.symm
  | modified q o n =>
    obtain ⟨hold, hnew, hne⟩ := h
    rw [List.mem_singleton.mp hp, hold, hnew]
    exact fun he => hne (Option.some.inj he)
  | deleted q o =>
    obtain ⟨hold, hnew⟩ := h
    rw [List.mem_singleton.mp hp, hold, hnew]
    exact Option.some_ne_none o
  | renamed f q o n =>
    obtain ⟨hf, hf', hq, hq'⟩ := h
    rcases List.mem_pair.mp hp with rfl | rfl
    · rw [hf, hf']
      exact Option.some_ne_none o
    · rw [hq, hq']
      exact Option.some_ne_none n |>.symm

end DiffEntry

/-- A right and complete report of the differences between two trees: each path where they
differ is spoken about once. -/
structure IsDelta (old new : GitTree) (entries : List DiffEntry) : Prop where
  holds : ∀ e ∈ entries, e.Holds old new
  complete : ∀ p, old.lookup p ≠ new.lookup p → p ∈ entries.flatMap DiffEntry.paths
  nodup : (entries.flatMap DiffEntry.paths).Nodup

theorem isDelta_iff {old new : GitTree} {entries : List DiffEntry} :
    IsDelta old new entries ↔
      (∀ e ∈ entries, e.Holds old new) ∧
        (∀ p ∈ old.keys ∪ new.keys, old.lookup p ≠ new.lookup p →
          p ∈ entries.flatMap DiffEntry.paths) ∧
        (entries.flatMap DiffEntry.paths).Nodup := by
  constructor
  · exact fun h => ⟨h.holds, fun p _ => h.complete p, h.nodup⟩
  · rintro ⟨hholds, hcomplete, hnodup⟩
    refine ⟨hholds, fun p hne => hcomplete p ?_ hne, hnodup⟩
    by_contra hp
    rw [Finset.mem_union, not_or, Finmap.mem_keys, Finmap.mem_keys, ← Finmap.lookup_eq_none,
      ← Finmap.lookup_eq_none] at hp
    exact hne (hp.1.trans hp.2.symm)

instance (old new : GitTree) (entries : List DiffEntry) : Decidable (IsDelta old new entries) :=
  decidable_of_iff _ isDelta_iff.symm

theorem IsDelta.mem_paths_iff {old new : GitTree} {entries : List DiffEntry}
    (h : IsDelta old new entries) (p : Path) :
    p ∈ entries.flatMap DiffEntry.paths ↔ old.lookup p ≠ new.lookup p := by
  constructor
  · intro hp
    obtain ⟨e, he, hpe⟩ := List.mem_flatMap.mp hp
    exact (h.holds e he).lookup_ne hpe
  · exact h.complete p

/-- Why a patch set could not be extracted. -/
inductive DiffExtractError
  | repoError (blob : GitOid)
  deriving DecidableEq, Repr

/-- The content of a blob, unless one of the modes is that of a submodule. -/
def readContent (repo : Repo) (modes : List EntryMode) (blob : GitOid) :
    Except DiffExtractError (Option Bytes) :=
  if EntryMode.commit ∈ modes then pure none
  else
    match repo.readBlob blob with
    | some content => pure (some content)
    | none => throw (.repoError blob)

/-- The changes of one difference. -/
def fileChangesFromEntry (repo : Repo) : DiffEntry → Except DiffExtractError (List FileChange)
  | .added p n => do
    let content ← readContent repo [n.mode] n.oid
    pure [⟨p, .added, content, some (fileIdFromBlob n.oid), some n.oid, some n.mode⟩]
  | .modified p o n => do
    let content ← readContent repo [n.mode, o.mode] n.oid
    pure [⟨p, .modified, content, some (fileIdFromBlob o.oid), some n.oid, some n.mode⟩]
  | .deleted p o =>
    pure [⟨p, .deleted, none, some (fileIdFromBlob o.oid), none, some o.mode⟩]
  | .renamed f p o n => do
    let content ← readContent repo [n.mode, o.mode] n.oid
    pure [⟨f, .deleted, none, some (fileIdFromBlob o.oid), none, some o.mode⟩,
      ⟨p, .modified, content, some (fileIdFromBlob o.oid), some n.oid, some n.mode⟩]

/-- The patch set of a report of differences. -/
def diffPatchset (repo : Repo) (entries : List DiffEntry) (workspaceId : WorkspaceId)
    (epoch : EpochId) : Except DiffExtractError PatchSet := do
  let changes ← entries.mapM (fileChangesFromEntry repo)
  pure (PatchSet.new workspaceId epoch changes.flatten)

/-- What a change says about the trees it was extracted from. -/
inductive FileChange.Reflects (old new : GitTree) : FileChange → Prop
  | added {c : FileChange} {n : MaterializedEntry} (kind : c.kind = .added)
      (hold : old.lookup c.path = none) (hnew : new.lookup c.path = some n)
      (blob : c.blob = some n.oid) (mode : c.mode = some n.mode)
      (fileId : c.fileId = some (fileIdFromBlob n.oid)) : Reflects old new c
  | modified {c : FileChange} {o n : MaterializedEntry} (kind : c.kind = .modified)
      (hold : old.lookup c.path = some o) (hnew : new.lookup c.path = some n) (hne : o ≠ n)
      (blob : c.blob = some n.oid) (mode : c.mode = some n.mode)
      (fileId : c.fileId = some (fileIdFromBlob o.oid)) : Reflects old new c
  | deleted {c : FileChange} {o : MaterializedEntry} (kind : c.kind = .deleted)
      (hold : old.lookup c.path = some o) (hnew : new.lookup c.path = none)
      (blob : c.blob = none) (mode : c.mode = some o.mode)
      (fileId : c.fileId = some (fileIdFromBlob o.oid)) : Reflects old new c
  | renamedTo {c : FileChange} {f : Path} {o n : MaterializedEntry} (kind : c.kind = .modified)
      (hold : old.lookup c.path = none) (hnew : new.lookup c.path = some n)
      (hsource : old.lookup f = some o) (hgone : new.lookup f = none)
      (blob : c.blob = some n.oid) (mode : c.mode = some n.mode)
      (fileId : c.fileId = some (fileIdFromBlob o.oid)) : Reflects old new c

theorem fileChangesFromEntry_paths {repo : Repo} {e : DiffEntry} {cs : List FileChange}
    (h : fileChangesFromEntry repo e = .ok cs) : cs.map (·.path) = e.paths := by
  cases e with
  | deleted p o =>
    rw [fileChangesFromEntry, ExceptRun.pure_eq_ok] at h
    rw [← h]
    rfl
  | _ =>
    rw [fileChangesFromEntry, ExceptRun.bind_eq_ok] at h
    obtain ⟨content, -, h⟩ := h
    rw [ExceptRun.pure_eq_ok] at h
    rw [← h]
    rfl

theorem fileChangesFromEntry_reflects {repo : Repo} {old new : GitTree} {e : DiffEntry}
    {cs : List FileChange} (he : e.Holds old new) (h : fileChangesFromEntry repo e = .ok cs)
    {c : FileChange} (hc : c ∈ cs) : c.Reflects old new := by
  cases e with
  | added p n =>
    rw [fileChangesFromEntry, ExceptRun.bind_eq_ok] at h
    obtain ⟨content, -, h⟩ := h
    rw [ExceptRun.pure_eq_ok] at h
    subst h
    obtain rfl := List.mem_singleton.mp hc
    exact .added rfl he.1 he.2 rfl rfl rfl
  | modified p o n =>
    rw [fileChangesFromEntry, ExceptRun.bind_eq_ok] at h
    obtain ⟨content, -, h⟩ := h
    rw [ExceptRun.pure_eq_ok] at h
    subst h
    obtain rfl := List.mem_singleton.mp hc
    exact .modified rfl he.1 he.2.1 he.2.2 rfl rfl rfl
  | deleted p o =>
    rw [fileChangesFromEntry, ExceptRun.pure_eq_ok] at h
    subst h
    obtain rfl := List.mem_singleton.mp hc
    exact .deleted rfl he.1 he.2 rfl rfl rfl
  | renamed f p o n =>
    rw [fileChangesFromEntry, ExceptRun.bind_eq_ok] at h
    obtain ⟨content, -, h⟩ := h
    rw [ExceptRun.pure_eq_ok] at h
    subst h
    obtain ⟨hf, hf', hp, hp'⟩ := he
    rcases List.mem_pair.mp hc with rfl | rfl
    · exact .deleted rfl hf hf' rfl rfl rfl
    · exact .renamedTo rfl hp hp' hf hf' rfl rfl rfl

section DiffPatchset

variable {repo : Repo} {old new : GitTree} {entries : List DiffEntry} {w : WorkspaceId}
  {epoch : EpochId} {patch : PatchSet}

theorem diffPatchset_eq_ok (h : diffPatchset repo entries w epoch = .ok patch) :
    ∃ changes, entries.mapM (fileChangesFromEntry repo) = .ok changes ∧
      patch = PatchSet.new w epoch changes.flatten := by
  rw [diffPatchset, ExceptRun.bind_eq_ok] at h
  obtain ⟨changes, hchanges, h⟩ := h
  rw [ExceptRun.pure_eq_ok] at h
  exact ⟨changes, hchanges, h.symm⟩

theorem diffPatchset_workspaceId (h : diffPatchset repo entries w epoch = .ok patch) :
    patch.workspaceId = w := by
  obtain ⟨changes, -, rfl⟩ := diffPatchset_eq_ok h
  rfl

theorem diffPatchset_epoch (h : diffPatchset repo entries w epoch = .ok patch) :
    patch.epoch = epoch := by
  obtain ⟨changes, -, rfl⟩ := diffPatchset_eq_ok h
  rfl

/-- The changes of a patch set are about the paths of the report. -/
theorem diffPatchset_paths_perm (h : diffPatchset repo entries w epoch = .ok patch) :
    (patch.changes.map (·.path)).Perm (entries.flatMap DiffEntry.paths) := by
  obtain ⟨changes, hchanges, rfl⟩ := diffPatchset_eq_ok h
  have hpaths : changes.flatten.map (·.path) = entries.flatMap DiffEntry.paths := by
    have hforall := ExceptRun.mapM_eq_ok hchanges
    clear hchanges h
    induction hforall with
    | nil => rfl
    | cons he _ ih =>
      rw [List.flatten_cons, List.map_append, ih, fileChangesFromEntry_paths he,
        List.flatMap_cons]
  exact hpaths ▸ (PatchSet.new_changes_perm w epoch changes.flatten).map _

/-- A patch set has at most one change for each path. -/
theorem diffPatchset_nodup (hd : IsDelta old new entries)
    (h : diffPatchset repo entries w epoch = .ok patch) : (patch.changes.map (·.path)).Nodup :=
  (diffPatchset_paths_perm h).nodup_iff.mpr hd.nodup

/-- The changes of a patch set are right about the two trees. -/
theorem diffPatchset_reflects (hd : IsDelta old new entries)
    (h : diffPatchset repo entries w epoch = .ok patch) {c : FileChange}
    (hc : c ∈ patch.changes) : c.Reflects old new := by
  obtain ⟨changes, hchanges, rfl⟩ := diffPatchset_eq_ok h
  rw [(PatchSet.new_changes_perm w epoch changes.flatten).mem_iff, List.mem_flatten] at hc
  obtain ⟨cs, hcs, hc⟩ := hc
  have hforall := ExceptRun.mapM_eq_ok hchanges
  obtain ⟨i, hi, rfl⟩ := List.getElem_of_mem hcs
  have hlen := hforall.length_eq
  exact fileChangesFromEntry_reflects (hd.holds _ (List.getElem_mem (hlen ▸ hi)))
    (hforall.get (hlen ▸ hi) hi) hc

/-- A patch set has no change exactly for the paths where the trees agree. -/
theorem diffPatchset_itemAt_eq_none (hd : IsDelta old new entries)
    (h : diffPatchset repo entries w epoch = .ok patch) (p : Path) :
    itemAt (·.path) patch.changes p = none ↔ old.lookup p = new.lookup p := by
  rw [itemAt_eq_none, (diffPatchset_paths_perm h).mem_iff, hd.mem_paths_iff, not_not]

end DiffPatchset

end Maw
