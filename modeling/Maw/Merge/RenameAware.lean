import Maw.Library.Grouping
import Maw.Merge.Partition

/-!
# Renames in a partition

A file keeps its identity when it is renamed. After the changes are sorted by their paths, the
changes of a file that is renamed to one path are moved to this path, where they are merged. A file
that is renamed to several paths, or is deleted by another workspace, is taken out and reported.

## Main definitions

* `FileHandling`, `handleFile` — what is done with the changes of one file.
* `applyRenameAwareness` — the partition with the changes moved.
-/

open FiniteMap

namespace Maw

theorem FileId.toNat_injective : Function.Injective fun i : FileId => i.bits.toNat := by
  rintro ⟨a⟩ ⟨b⟩ h
  exact congrArg FileId.mk (BitVec.eq_of_toNat_eq h)

instance : LinearOrder FileId := LinearOrder.lift' (fun i => i.bits.toNat) FileId.toNat_injective

/-- A conflict of renames. -/
inductive RenameConflict
  | divergentRename (fileId : FileId) (originalPath : Path)
    (destinations : List (WorkspaceId × Path))
  | renameDelete (fileId : FileId) (originalPath : Path) (renamer : WorkspaceId × Path)
    (deleter : WorkspaceId)
  deriving DecidableEq, Repr

def RenameConflict.fileId : RenameConflict → FileId
  | divergentRename fileId .. | renameDelete fileId .. => fileId

/-- A change of a file with its path. -/
structure FileIdOccurrence where
  workspaceId : WorkspaceId
  path : Path
  entry : PathEntry
  deriving DecidableEq, Repr

namespace FileIdOccurrence

/-- Paths and workspaces name the changes. -/
def key (o : FileIdOccurrence) : Path × WorkspaceId := (o.path, o.workspaceId)

def isDeletion (o : FileIdOccurrence) : Bool := o.entry.isDeletion

end FileIdOccurrence

/-- The changes with a file identity. -/
def occurrenceOf (p : Path) (e : PathEntry) : Option (FileId × FileIdOccurrence) :=
  e.fileId.map fun fileId => (fileId, ⟨e.workspaceId, p, e⟩)

def PartitionResult.occurrences (partition : PartitionResult) :
    List (FileId × FileIdOccurrence) :=
  (partition.unique.filterMap fun u => occurrenceOf u.1 u.2) ++
    partition.shared.flatMap fun s => s.2.filterMap (occurrenceOf s.1)

/-! ### The changes of one file -/

section File

variable (occurrences : List FileIdOccurrence)

/-- The paths of a file with its changes. -/
def pathsSeen : List (Path × List FileIdOccurrence) :=
  (group (occurrences.map fun o => (o.path, o))).sortedEntries

def nonDeletes : List FileIdOccurrence := occurrences.filter fun o => !o.isDeletion

def hasAdd : Bool := occurrences.any fun o => o.entry.kind = .added

variable (seen : List (Path × List FileIdOccurrence))

/-- The destinations of renames. -/
def addPaths : List (Path × List FileIdOccurrence) :=
  seen.filterMap fun s =>
    if hasAdd s.2 && !(nonDeletes s.2).isEmpty then some (s.1, nonDeletes s.2) else none

/-- The paths at which a file is only changed. -/
def modifyPaths : List (Path × List FileIdOccurrence) :=
  seen.filterMap fun s =>
    if !hasAdd s.2 && !(nonDeletes s.2).isEmpty then some (s.1, nonDeletes s.2) else none

def deleteOccurrences : List FileIdOccurrence := seen.flatMap fun s => s.2.filter (·.isDeletion)

/-- The deletions by workspaces that do nothing else with the file. -/
def actualPureDeleters (destPath : Path) (destOccs : List FileIdOccurrence) :
    List FileIdOccurrence :=
  let pureDeleters := (deleteOccurrences seen).filter fun o =>
    !(destOccs.map (·.workspaceId)).contains o.workspaceId && o.path ≠ destPath
  pureDeleters.filter fun o =>
    !((nonDeletes occurrences).map (·.workspaceId)).contains o.workspaceId

end File

/-- What is done with the changes of a file. -/
structure FileHandling where
  conflict : Option RenameConflict
  consumed : List (Path × WorkspaceId)
  rerouted : List (Path × PathEntry)

namespace FileHandling

def nothing : FileHandling := ⟨none, [], []⟩

end FileHandling

/-- The destinations with their workspaces, in the order of the workspaces. -/
def divergentDestinations (adds : List (Path × List FileIdOccurrence)) :
    List (WorkspaceId × Path) :=
  (adds.flatMap fun a => a.2.map fun o => (o.workspaceId, a.1)).insertionSort fun a b =>
    a.1.name.toList ≤ b.1.name.toList

/-- The changes at other paths are moved to the destination, but for deletions. -/
def rerouteFile (seen : List (Path × List FileIdOccurrence)) (destPath : Path)
    (destOccs : List FileIdOccurrence) : FileHandling :=
  let old := (seen.filter fun s => s.1 ≠ destPath).flatMap Prod.snd
  { conflict := none
    consumed := old.map (·.key) ++ destOccs.map (·.key)
    rerouted := (nonDeletes old).map (fun o => (destPath, o.entry)) ++
      destOccs.map fun o => (destPath, o.entry) }

/-- What is done with a file: nothing if it has one path or no destination. A destination has a
change that is no deletion. -/
def handleFile (fileId : FileId) (occurrences : List FileIdOccurrence) : FileHandling :=
  let seen := pathsSeen occurrences
  if seen.length ≤ 1 then .nothing
  else
    match addPaths seen with
    | [] => .nothing
    | [(destPath, destOccs)] =>
      match actualPureDeleters occurrences seen destPath destOccs, destOccs with
      | deleter :: _, renamer :: _ =>
        { conflict := some (.renameDelete fileId deleter.path (renamer.workspaceId, destPath)
            deleter.workspaceId)
          consumed := occurrences.map (·.key)
          rerouted := [] }
      | _, _ => rerouteFile seen destPath destOccs
    | first :: second :: adds =>
      { conflict := some (.divergentRename fileId
          (((modifyPaths seen).head?.map Prod.fst).getD first.1)
          (divergentDestinations (first :: second :: adds)))
        consumed := occurrences.map (·.key)
        rerouted := [] }

/-! ### The partition -/

structure RenameAwareResult where
  partition : PartitionResult
  renameConflicts : List RenameConflict

/-- The handling of all files with an identity. -/
def PartitionResult.handlings (partition : PartitionResult) : List FileHandling :=
  (group partition.occurrences).sortedEntries.map fun f => handleFile f.1 f.2

section Rebuild

variable (consumed : List (Path × WorkspaceId)) (partition : PartitionResult)

/-- The changes of a path that are not taken out. -/
def remainingAt (p : Path) (entries : List PathEntry) : List PathEntry :=
  entries.filter fun e => !consumed.contains (p, e.workspaceId)

/-- The paths with one change, also those whose other changes are taken out. -/
def keptUnique : List (Path × PathEntry) :=
  (partition.unique.filter fun u => !consumed.contains (u.1, u.2.workspaceId)) ++
    partition.shared.filterMap fun s =>
      match remainingAt consumed s.1 s.2 with
      | [e] => some (s.1, e)
      | _ => none

/-- The paths with more changes. -/
def keptShared : FiniteMap Path (List PathEntry) :=
  partition.shared.foldl (fun m s =>
    match remainingAt consumed s.1 s.2 with
    | [] | [_] => m
    | entries => m.insert s.1 entries) ∅

/-- The paths with more changes, and the changes moved to their destinations. -/
def finalShared (rerouted : List (Path × PathEntry)) : List (Path × List PathEntry) :=
  ((group rerouted).sortedEntries.foldl (fun m r => m.extend r.1 r.2)
    (keptShared consumed partition)).sortedEntries.map fun s => (s.1, byWorkspace s.2)

end Rebuild

def applyRenameAwareness (partition : PartitionResult) : RenameAwareResult :=
  let handlings := partition.handlings
  let consumed := handlings.flatMap (·.consumed)
  let final := finalShared consumed partition (handlings.flatMap (·.rerouted))
  { partition :=
      { unique := (keptUnique consumed partition ++ final.filterMap asUnique).insertionSort
          fun a b => a.1 ≤ b.1
        shared := final.filter fun s => s.2.length ≠ 1
        dfClashes := [] }
    renameConflicts := (handlings.filterMap (·.conflict)).insertionSort fun a b =>
      a.fileId ≤ b.fileId }

end Maw
