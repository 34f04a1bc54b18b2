import Mathlib.Data.BitVec
import Mathlib.Data.List.Sort
import Maw.Core.Path
import Maw.Library.FiniteMap

/-!
# Identifiers, changes and patch sets

The values that the merge and rebase code passes around: object and file identities, entry
modes, file changes and the patch set of a workspace.

## Main definitions

* `GitOid`, `FileId`, `EpochId`, `WorkspaceId` — identifiers.
* `EntryMode`, `MaterializedEntry`, `GitTree` — flattened git trees.
* `FileChange`, `PatchSet` — what a workspace changed.
-/

namespace Maw

/-- File contents. -/
abbrev Bytes := List UInt8

/-- A git object id: forty hexadecimal digits. -/
structure GitOid where
  bits : BitVec 160
  deriving DecidableEq, Repr

/-- A file identity that survives renames. -/
structure FileId where
  bits : BitVec 128
  deriving DecidableEq, Repr

/-- An epoch is named by its commit. -/
structure EpochId where
  oid : GitOid
  deriving DecidableEq, Repr

/-- The name of a workspace. -/
structure WorkspaceId where
  name : String
  deriving DecidableEq, Repr

/-- The file identity of a blob: the first thirty-two hexadecimal digits of its id. -/
def fileIdFromBlob (blob : GitOid) : FileId :=
  ⟨blob.bits.extractLsb' 32 128⟩

/-- The mode of a tree entry. -/
inductive EntryMode
  | blob
  | blobExecutable
  | tree
  | link
  | commit
  deriving DecidableEq, Repr

/-- A tree entry with a known blob. -/
structure MaterializedEntry where
  mode : EntryMode
  oid : GitOid
  deriving DecidableEq, Repr

/-- A git tree, flattened: its entries that are not subtrees, by path. -/
abbrev GitTree := FiniteMap Path MaterializedEntry

/-- The blob of a tree at a path. -/
def blobAt (tree : GitTree) (p : Path) : Option GitOid := (tree.lookup p).map (·.oid)

/-- No entry of the tree lies below another one. -/
def TreePrefixFree (tree : GitTree) : Prop := PrefixFree {p | tree.lookup p ≠ none}

theorem treePrefixFree_iff {tree : GitTree} :
    TreePrefixFree tree ↔ ∀ p ∈ tree.keys, ∀ q ∈ tree.keys, ¬ p.Above q := by
  simp [TreePrefixFree, PrefixFree, Finmap.lookup_eq_none, Finmap.mem_keys]

instance (tree : GitTree) : Decidable (TreePrefixFree tree) :=
  decidable_of_iff _ treePrefixFree_iff.symm

inductive ChangeKind
  | added
  | modified
  | deleted
  deriving DecidableEq, Repr

/-- One change of a workspace to one path. -/
structure FileChange where
  path : Path
  kind : ChangeKind
  content : Option Bytes
  fileId : Option FileId
  blob : Option GitOid
  mode : Option EntryMode
  deriving DecidableEq, Repr

namespace FileChange

/-- Whether the change is a deletion. -/
def isDeletion (c : FileChange) : Bool := c.kind = .deleted

/-- Whether the change adds or modifies its path. -/
def isUpsert (c : FileChange) : Bool := c.kind = .added || c.kind = .modified

theorem isUpsert_iff (c : FileChange) : c.isUpsert = true ↔ c.kind ≠ .deleted := by
  unfold isUpsert
  cases c.kind <;> simp

end FileChange

/-- The changes of one workspace against one epoch. -/
structure PatchSet where
  workspaceId : WorkspaceId
  epoch : EpochId
  changes : List FileChange
  deriving DecidableEq, Repr

namespace PatchSet

/-- A patch set lists its changes in the order of their paths. -/
def new (workspaceId : WorkspaceId) (epoch : EpochId) (changes : List FileChange) : PatchSet where
  workspaceId := workspaceId
  epoch := epoch
  changes := changes.insertionSort fun a b => a.path ≤ b.path

theorem new_changes_perm (w : WorkspaceId) (e : EpochId) (changes : List FileChange) :
    (new w e changes).changes.Perm changes :=
  List.perm_insertionSort _ _

end PatchSet

end Maw
