import Maw.Core.Commits
import Maw.Library.KeyedSort
import Maw.Library.SortedPrefix

/-!
# The status of a worktree

A worktree is on a commit, has an index and files on disk. Git compares the commit with the index
and the index with the disk; the status relative to the commit is put together from the two
halves, path by path.

## Main definitions

* `Occupant`, `Disk`, `Worktree` — what stands on disk, and the worktree around it.
* `Worktree.content` — the state of the worktree, as a tree.
* `stagedStatus`, `unstagedStatus`, `netHeadToWorktree` — the two halves and their sum.
* `statusHeadToWorktree` — the paths that differ from the commit.

## Main results

* `Worktree.mem_status`, `Worktree.status_pairwise` — what is listed, and in which order.
* `Worktree.statusAt_cases` — what a status tells of the content.
-/

open KeyedSort

namespace Maw

/-- What stands at a path of a worktree, if it is no plain directory. -/
inductive Occupant
  | regular (blob : GitOid)
  | executable (blob : GitOid)
  | symlink (target : GitOid)
  /-- A directory with a git repository of its own, with the commit that is checked out there. -/
  | repository (head : Option GitOid)
  /-- A socket, a pipe or a device. -/
  | special
  deriving DecidableEq, Repr

namespace Occupant

/-- The entry of a file or a symbolic link. -/
def fileEntry : Occupant → Option MaterializedEntry
  | regular blob => some ⟨.blob, blob⟩
  | executable blob => some ⟨.blobExecutable, blob⟩
  | symlink target => some ⟨.link, target⟩
  | repository _ => none
  | special => none

/-- The entry that a tree can have for it. -/
def entry : Occupant → Option MaterializedEntry
  | repository head => head.map fun oid => ⟨.commit, oid⟩
  | occupant => occupant.fileEntry

theorem entry_of_fileEntry {occupant : Occupant} {e : MaterializedEntry}
    (h : occupant.fileEntry = some e) : occupant.entry = some e := by
  cases occupant <;> simp_all [fileEntry, entry]

end Occupant

/-- The files on disk; nothing lies below a file. -/
structure Disk where
  occupants : FiniteMap Path Occupant
  prefixFree : PrefixFree {p | occupants.lookup p ≠ none}

namespace Disk

/-- The tree entry of what stands at a path. -/
def entryAt (disk : Disk) (p : Path) : Option MaterializedEntry :=
  (disk.occupants.lookup p).bind Occupant.entry

/-- Whether anything stands at a path, be it a directory. -/
def OnDisk (disk : Disk) (p : Path) : Prop := ∃ q ∈ disk.occupants.keys, q = p ∨ p.Above q

instance (disk : Disk) (p : Path) : Decidable (disk.OnDisk p) :=
  inferInstanceAs (Decidable (∃ q ∈ disk.occupants.keys, _))

end Disk

/-- A worktree: the commit that it is on, its index and its files. -/
structure Worktree where
  head : GitOid
  index : GitTree
  disk : Disk

inductive FileStatus
  | added
  | modified
  | deleted
  | renamed
  | untracked
  deriving DecidableEq, Repr

/-- The status of a path in the index relative to the tree of the commit. -/
def stagedStatus (head index : GitTree) (p : Path) : Option FileStatus :=
  match head.lookup p, index.lookup p with
  | none, none => none
  | none, some _ => some .added
  | some _, none => some .deleted
  | some e, some e' => if e = e' then none else some .modified

/-- The status of a path on disk relative to the index. A path that is not in the index shows
unless it is ignored. -/
def unstagedStatus (ignored : Disk → Path → Bool) (index : GitTree) (disk : Disk) (p : Path) :
    Option FileStatus :=
  match index.lookup p, disk.occupants.lookup p with
  | none, none => none
  | none, some occupant => if ignored disk p || occupant = .special then none else some .added
  | some _, none => some .deleted
  | some e, some occupant => if occupant.entry = some e then none else some .modified

/-- The status relative to the commit, from the two halves. -/
def netHeadToWorktree (staged unstaged : Option FileStatus) : Option FileStatus :=
  match staged, unstaged with
  | none, x => x
  | some x, none => some x
  | some .added, some .deleted => none
  | some .added, some _ => some .added
  | some .modified, some .deleted => some .deleted
  | some .deleted, some .deleted => some .deleted
  | some .modified, some _ => some .modified
  | some .deleted, some _ => some .modified
  | some other, some _ => some other

namespace Worktree

variable (ignored : Disk → Path → Bool) (head : GitTree) (wt : Worktree)

/-- The status of a path relative to the tree of the commit. -/
def statusAt (p : Path) : Option FileStatus :=
  netHeadToWorktree (stagedStatus head wt.index p) (unstagedStatus ignored wt.index wt.disk p)

/-- The paths with their status, in the order of their text. -/
def statusHeadToWorktree : List (Path × FileStatus) :=
  (inOrderOf Path.slashed Path.slashed_injective
    (head.keys ∪ wt.index.keys ∪ wt.disk.occupants.keys)).filterMap fun p =>
      (wt.statusAt ignored head p).map fun status => (p, status)

/-- The state of the worktree: what stands on disk at the paths that are in the index or not
ignored. -/
def content (p : Path) : Option MaterializedEntry :=
  if (wt.index.lookup p).isNone && ignored wt.disk p then none else wt.disk.entryAt p

variable {ignored head wt} {p : Path} {status : FileStatus}

theorem mem_status : (p, status) ∈ wt.statusHeadToWorktree ignored head ↔
    wt.statusAt ignored head p = some status := by
  rw [statusHeadToWorktree, List.mem_filterMap]
  constructor
  · rintro ⟨q, -, hq⟩
    obtain ⟨_, hstatus, he⟩ := Option.map_eq_some_iff.mp hq
    obtain ⟨rfl, rfl⟩ := Prod.mk.inj he
    exact hstatus
  · intro h
    refine ⟨p, ?_, by rw [h]; rfl⟩
    rw [mem_inOrderOf]
    -- A path that none of the three has, has no status.
    by_contra hp
    simp only [Finset.mem_union, Finmap.mem_keys, not_or, ← Finmap.lookup_eq_none] at hp
    obtain ⟨⟨hhead, hindex⟩, hdisk⟩ := hp
    simp [statusAt, stagedStatus, unstagedStatus, netHeadToWorktree, hhead, hindex, hdisk] at h

/-- A path is listed before the paths below it. -/
theorem status_pairwise :
    (wt.statusHeadToWorktree ignored head).Pairwise fun a b => ¬ b.1.Above a.1 := by
  rw [statusHeadToWorktree, List.pairwise_filterMap]
  refine (sorted_inOrderOf.and nodup_inOrderOf).imp ?_
  rintro p q ⟨hle, hne⟩ a ha b hb habove
  obtain ⟨_, -, rfl⟩ := Option.map_eq_some_iff.mp ha
  obtain ⟨_, -, rfl⟩ := Option.map_eq_some_iff.mp hb
  have hbegins : q.slashed <+: p.slashed := by
    rw [← Path.isDirPrefixOf_iff, Path.isDirPrefixOf, List.isPrefixOf_iff_prefix] at habove
    exact (List.prefix_append _ _).trans habove
  exact hne (Path.slashed_injective (le_antisymm hle (SortedPrefix.le_of_begins hbegins)))

/-- A path without a status is as the commit has it; a deleted one is not there any more; at the
others something stands on disk. -/
theorem statusAt_cases (ignored : Disk → Path → Bool) (head : GitTree) (wt : Worktree) (p : Path) :
    (wt.statusAt ignored head p = none ∧ wt.content ignored p = head.lookup p) ∨
      (wt.statusAt ignored head p = some .deleted ∧ wt.content ignored p = none ∧
        head.lookup p ≠ none) ∨
      ∃ status occupant, wt.statusAt ignored head p = some status ∧ status ≠ .deleted ∧
        wt.disk.occupants.lookup p = some occupant ∧ wt.content ignored p = occupant.entry := by
  rw [statusAt, content, Disk.entryAt]
  rcases hindex : wt.index.lookup p with _ | e <;>
    rcases hdisk : wt.disk.occupants.lookup p with _ | occupant
  · -- Neither in the index nor on disk.
    rcases hhead : head.lookup p with _ | e' <;>
      simp [stagedStatus, unstagedStatus, netHeadToWorktree, hhead, hindex, hdisk]
  · -- Not in the index: ignored, or untracked.
    by_cases hignored : ignored wt.disk p = true
    · rcases hhead : head.lookup p with _ | e' <;>
        simp [stagedStatus, unstagedStatus, netHeadToWorktree, hhead, hindex, hdisk, hignored]
    · by_cases hspecial : occupant = .special <;> rcases hhead : head.lookup p with _ | e' <;>
        simp [stagedStatus, unstagedStatus, netHeadToWorktree, hhead, hindex, hdisk, hignored,
          hspecial, Occupant.entry, Occupant.fileEntry]
  · -- In the index, but not on disk.
    rcases hhead : head.lookup p with _ | e'
    · simp [stagedStatus, unstagedStatus, netHeadToWorktree, hhead, hindex, hdisk]
    · by_cases he : e' = e <;>
        simp [stagedStatus, unstagedStatus, netHeadToWorktree, hhead, hindex, hdisk, he]
  · -- In the index and on disk.
    by_cases hentry : occupant.entry = some e
    · rcases hhead : head.lookup p with _ | e'
      · simp [stagedStatus, unstagedStatus, netHeadToWorktree, hhead, hindex, hdisk, hentry]
      · by_cases he : e' = e <;>
          simp [stagedStatus, unstagedStatus, netHeadToWorktree, hhead, hindex, hdisk, hentry, he]
    · rcases hhead : head.lookup p with _ | e'
      · simp [stagedStatus, unstagedStatus, netHeadToWorktree, hhead, hindex, hdisk, hentry]
      · by_cases he : e' = e <;>
          simp [stagedStatus, unstagedStatus, netHeadToWorktree, hhead, hindex, hdisk, hentry, he]

end Worktree

/-- A disk with one file. -/
def sampleDisk (n : Nat) : Disk where
  occupants := Finmap.singleton samplePath (.regular (sampleBlob n))
  prefixFree := by
    intro p hp q hq
    have hp' : p = samplePath := by simpa [Finmap.lookup_eq_none] using hp
    have hq' : q = samplePath := by simpa [Finmap.lookup_eq_none] using hq
    rw [hp', hq']
    exact Path.Above.irrefl _

/-- No path is ignored. -/
def noneIgnored (_ : Disk) (_ : Path) : Bool := false

/-- A clean worktree of one file. -/
def sampleWorktree (head : GitOid) (n : Nat) : Worktree := ⟨head, oneFileTree n, sampleDisk n⟩

end Maw
