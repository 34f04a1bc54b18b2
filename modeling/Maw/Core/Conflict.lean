import Maw.Core.Types

/-!
# Conflicts and conflict trees

A conflict keeps every contested version of a path as data. A conflict tree splits the paths
of a tree into those with a settled entry and those in conflict.

## Main definitions

* `ConflictSide`, `Conflict` — a contested path and its sides.
* `ConflictTree` — settled entries and conflicts over a base epoch.
-/

namespace Maw

/-- The modes that a conflict side can carry. -/
inductive ConflictSideMode
  | blob
  | blobExecutable
  | link
  deriving DecidableEq, Repr

/-- Subtrees and submodules have no side mode. -/
def EntryMode.toConflictSideMode : EntryMode → Option ConflictSideMode
  | .blob => some .blob
  | .blobExecutable => some .blobExecutable
  | .link => some .link
  | .tree | .commit => none

/-- The place of an operation in the order of its workspace. -/
structure OrderingKey where
  epochId : EpochId
  workspaceId : WorkspaceId
  seq : UInt64
  wallClockMs : UInt64
  deriving DecidableEq, Repr

/-- The version of a file that one workspace contributes to a conflict. -/
structure ConflictSide where
  workspace : String
  content : GitOid
  timestamp : OrderingKey
  mode : Option ConflictSideMode
  baseContent : Option GitOid
  deriving DecidableEq, Repr

namespace ConflictSide

/-- A side without mode or base. -/
def new (workspace : String) (content : GitOid) (timestamp : OrderingKey) : ConflictSide :=
  ⟨workspace, content, timestamp, none, none⟩

/-- A side with the blob it is to be merged against. -/
def withBase (workspace : String) (content : GitOid) (timestamp : OrderingKey)
    (baseContent : Option GitOid) : ConflictSide :=
  ⟨workspace, content, timestamp, none, baseContent⟩

def withModeAndBase (workspace : String) (content : GitOid) (timestamp : OrderingKey)
    (mode : Option ConflictSideMode) (baseContent : Option GitOid) : ConflictSide :=
  ⟨workspace, content, timestamp, mode, baseContent⟩

end ConflictSide

/-- A contested path. -/
inductive Conflict
  | content (path : Path) (fileId : FileId) (base : Option GitOid) (sides : List ConflictSide)
  | addAdd (path : Path) (sides : List ConflictSide)
  | modifyDelete (path : Path) (fileId : FileId) (modifier deleter : ConflictSide)
      (modifiedContent : GitOid) (renameHint dfHint : Option Path)
  | divergentRename (fileId : FileId) (original : Path) (destinations : List (Path × ConflictSide))
  deriving DecidableEq, Repr

namespace Conflict

/-- The path of a conflict; a divergent rename is filed under its source. -/
def path : Conflict → Path
  | content p .. | addAdd p _ | modifyDelete p .. => p
  | divergentRename _ original _ => original

def variantName : Conflict → String
  | content .. => "content"
  | addAdd .. => "add_add"
  | modifyDelete .. => "modify_delete"
  | divergentRename .. => "divergent_rename"

end Conflict

/-- A tree some of whose paths are in conflict. Each conflict is filed under its path. -/
structure ConflictTree where
  clean : GitTree
  conflicts : FiniteMap Path Conflict
  baseEpoch : EpochId
  keyed : ∀ p c, conflicts.lookup p = some c → c.path = p
  deriving DecidableEq

namespace ConflictTree

/-- The empty tree over an epoch. -/
def new (baseEpoch : EpochId) : ConflictTree where
  clean := ∅
  conflicts := ∅
  baseEpoch := baseEpoch
  keyed := by simp

/-- What a conflict tree holds at one path. -/
structure Slot where
  clean : Option MaterializedEntry
  conflict : Option Conflict
  deriving DecidableEq

def slot (t : ConflictTree) (p : Path) : Slot :=
  ⟨t.clean.lookup p, t.conflicts.lookup p⟩

theorem slot_clean (t : ConflictTree) (p : Path) : (t.slot p).clean = t.clean.lookup p := rfl

theorem slot_conflict (t : ConflictTree) (p : Path) :
    (t.slot p).conflict = t.conflicts.lookup p := rfl

/-- Set the clean entry of a path. -/
def insertClean (t : ConflictTree) (p : Path) (e : MaterializedEntry) : ConflictTree :=
  { t with clean := t.clean.insert p e }

/-- Drop the clean entry of a path. -/
def removeClean (t : ConflictTree) (p : Path) : ConflictTree :=
  { t with clean := t.clean.erase p }

/-- Drop the clean entries below a directory. -/
def removeCleanBelow (t : ConflictTree) (p : Path) : ConflictTree :=
  { t with clean := t.clean.filterKeys fun q => p.isDirPrefixOf q = false }

/-- File a conflict under its path. -/
def insertConflict (t : ConflictTree) (c : Conflict) : ConflictTree where
  clean := t.clean
  conflicts := t.conflicts.insert c.path c
  baseEpoch := t.baseEpoch
  keyed p c' h := by
    rw [FiniteMap.lookup_insert] at h
    split_ifs at h with hp
    · rw [hp, ← Option.some.inj h]
    · exact t.keyed p c' h

/-- Drop the conflict of a path. -/
def removeConflict (t : ConflictTree) (p : Path) : ConflictTree where
  clean := t.clean
  conflicts := t.conflicts.erase p
  baseEpoch := t.baseEpoch
  keyed q c h := by
    rw [FiniteMap.lookup_erase] at h
    split_ifs at h
    exact t.keyed q c h

section Slot

variable (t : ConflictTree) (p q : Path)

theorem slot_insertClean (e : MaterializedEntry) :
    (t.insertClean p e).slot q = if q = p then ⟨some e, (t.slot q).conflict⟩ else t.slot q := by
  simp only [slot, insertClean, FiniteMap.lookup_insert]
  split_ifs <;> rfl

theorem slot_removeClean :
    (t.removeClean p).slot q = if q = p then ⟨none, (t.slot q).conflict⟩ else t.slot q := by
  simp only [slot, removeClean, FiniteMap.lookup_erase]
  split_ifs <;> rfl

theorem slot_removeCleanBelow :
    (t.removeCleanBelow p).slot q =
      if p.Above q then ⟨none, (t.slot q).conflict⟩ else t.slot q := by
  simp only [slot, removeCleanBelow, FiniteMap.lookup_filterKeys]
  by_cases h : p.Above q
  · simp [h, Path.isDirPrefixOf_iff.mpr h]
  · have hfalse : p.isDirPrefixOf q = false := by
      simpa using mt Path.isDirPrefixOf_iff.mp h
    simp [h, hfalse]

theorem slot_insertConflict (c : Conflict) :
    (t.insertConflict c).slot q =
      if q = c.path then ⟨(t.slot q).clean, some c⟩ else t.slot q := by
  simp only [slot, insertConflict, FiniteMap.lookup_insert]
  split_ifs <;> rfl

theorem slot_removeConflict :
    (t.removeConflict p).slot q = if q = p then ⟨(t.slot q).clean, none⟩ else t.slot q := by
  simp only [slot, removeConflict, FiniteMap.lookup_erase]
  split_ifs <;> rfl

end Slot

/-- Whether any path is in conflict. -/
def hasConflicts (t : ConflictTree) : Bool := t.conflicts ≠ ∅

/-- The paths of a conflict tree, settled or in conflict. -/
def paths (t : ConflictTree) : Set Path := {p | p ∈ t.clean ∨ p ∈ t.conflicts}

theorem mem_paths {t : ConflictTree} {p : Path} :
    p ∈ t.paths ↔ (t.slot p).clean ≠ none ∨ (t.slot p).conflict ≠ none := by
  simp [paths, slot, Finmap.lookup_eq_none]

end ConflictTree

end Maw
