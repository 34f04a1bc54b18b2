import Mathlib.Order.Lattice.Nat
import Maw.Core.Path
import Maw.Library.DirWalk
import Maw.Library.FiniteMap
import Maw.Library.LinkTree

/-!
# What the backends report as changed

A workspace comes from the tree of an epoch. The overlay backend reads the changes off the upper layer,
the reflink backend walks the epoch's directory and that of the workspace, and the copy backend asks git
and reads files. Lists of paths are sets here: their order does not count.

## Main definitions

* `Volume` — a disk; `Volume.stat` follows links, `Volume.fs` does not.
* `SnapshotResult`, `IsExactDiff` — the lists, and those that are exact.
* `OverlayWorkspace`, `ReflinkWorkspace`, `CopyWorkspace` — a workspace of each backend, with the tree
  of its epoch, its files and what `snapshot` and `status` answer.
* `Reports` — the answers are exact, and a missing epoch snapshot is an error.
-/

open LinkTree DirWalk

namespace Maw.BackendDiff

abbrev Names := List Component

/-! ### The disk -/

/-- A regular file, or the device by which an upper layer hides a name of the lower one. -/
inductive FileData
  | regular (content : List UInt8) (executable : Bool)
  | whiteout
  deriving DecidableEq

/-- A file as git has it. -/
inductive Leaf
  | regular (content : List UInt8) (executable : Bool)
  | link (text : LinkText Component)
  deriving DecidableEq

abbrev DiskNode := Node Component FileData

def leafOf : DiskNode → Option Leaf
  | .file (.regular content executable) => some (.regular content executable)
  | .link text => some (.link text)
  | .file .whiteout | .dir .. => none

def isRegular : DiskNode → Bool
  | .file (.regular ..) => true
  | _ => false

def contentOf : DiskNode → Option (List UInt8)
  | .file (.regular content _) => some content
  | _ => none

def isWhiteout : DiskNode → Bool
  | .file .whiteout => true
  | _ => false

/-- A disk whose directories can all be read; a path goes through so many links at most. -/
structure Volume where
  nodes : FiniteMap Names DiskNode
  wellFormed : WellFormed nodes.lookup
  accessible : ∀ place node, nodes.lookup place = some node → node.isDir = true →
    node = .dir true true
  maxLinks : ℕ

namespace Volume

variable (v : Volume)

/-- What stands at a place, a link itself included. -/
def fs : Tree Component FileData := v.nodes.lookup

/-- What a path from a directory leads to, links followed. -/
def stat (root p : Names) : Option DiskNode :=
  (resolve v.fs v.maxLinks root (p.map .down)).bind v.fs

/-- The names in a directory. -/
def readDir (place : Names) : Finset Component :=
  v.nodes.keys.biUnion fun p => if p.dropLast = place then p.getLast?.toFinset else ∅

def depth : ℕ := v.nodes.keys.sup List.length

/-- More names than any path has that leads somewhere. -/
def reach : ℕ := (v.maxLinks + 1) * v.depth

/-- The file at a path below a directory. -/
def leaf (root p : Names) : Option Leaf := (v.fs (root ++ p)).bind leafOf

def isDir (root p : Names) : Bool := (v.stat root p).any Node.isDir

def isFile (root p : Names) : Bool := (v.stat root p).any isRegular

/-- Whether a path leads anywhere. -/
def exists? (root p : Names) : Bool := (v.stat root p).isSome

/-- The bytes of the file that a path leads to. -/
def read (root p : Names) : Option (List UInt8) := (v.stat root p).bind contentOf

/-- The device of the upper layer, also behind a link. -/
def isWhiteoutFile (root p : Names) : Bool := (v.stat root p).any isWhiteout

/-- A walk that takes links for files and enters directories by their names. -/
def plainView (root : Names) (entersName : Component → Bool) : View Component where
  entries p := v.readDir (root ++ p)
  enters p := (v.fs (root ++ p)).any Node.isDir && p.getLast?.any entersName
  lists p := (v.fs (root ++ p)).any fun node => !node.isDir

/-- The names of the directory that a path leads to. -/
def entries (root p : Names) : Finset Component :=
  match resolve v.fs v.maxLinks root (p.map .down) with
  | some place => v.readDir place
  | none => ∅

end Volume

/-! ### The lists -/

structure SnapshotResult where
  added : Finset Names
  modified : Finset Names
  deleted : Finset Names
  deriving DecidableEq

namespace SnapshotResult

def all (r : SnapshotResult) : Finset Names := r.added ∪ r.modified ∪ r.deleted

end SnapshotResult

/-- The exact difference of the tree and the files, but for one file of the backend. -/
structure IsExactDiff (metadata : Names) (T W : Names → Option Leaf) (r : SnapshotResult) :
    Prop where
  added : ∀ p ≠ metadata, p ∈ r.added ↔ T p = none ∧ W p ≠ none
  modified : ∀ p ≠ metadata, p ∈ r.modified ↔ T p ≠ none ∧ W p ≠ none ∧ T p ≠ W p
  deleted : ∀ p ≠ metadata, p ∈ r.deleted ↔ T p ≠ none ∧ W p = none

inductive BackendError
  | notFound
  deriving DecidableEq, Repr

/-- Exact lists, dirty files that are their union, and an error if the snapshot of the epoch is missing. -/
structure Reports (metadata : Names) (present : Prop) (T W : Names → Option Leaf)
    (snapshot : Except BackendError SnapshotResult) (dirty : Except BackendError (Finset Names)) :
    Prop where
  exact : present → ∃ r, snapshot = .ok r ∧ IsExactDiff metadata T W r
  union : present → ∃ r d, snapshot = .ok r ∧ dirty = .ok d ∧ ∀ p ≠ metadata, p ∈ d ↔ p ∈ r.all
  missing : ¬ present → ∃ e, snapshot = .error e

def epochFile : Names := [Component.lit ".maw-epoch"]

theorem isName_refcount : ".refcount".toList ≠ [] ∧ '/' ∉ ".refcount".toList := by decide

def refcountFile : Names := [Component.lit ".refcount" isName_refcount]

/-! ### The overlay backend -/

/-- A mounted overlay: the directory of the epoch below, that of the changes above and the directories
of it that hide what is below them. -/
structure OverlayWorkspace where
  v : Volume
  upper : Names
  lower : Names
  marked : Finset Names
  upper_isDir : (v.fs upper).any Node.isDir = true

namespace OverlayWorkspace

variable (ws : OverlayWorkspace)

def Present : Prop := (ws.v.fs ws.lower).any Node.isDir = true

def tree (p : Names) : Option Leaf := ws.v.leaf ws.lower p

/-- Whether something in the upper layer above a path hides the lower one: a directory that is marked,
or what is no directory. -/
def isHidden (p : Names) : Bool :=
  p.inits.dropLast.any fun above =>
    above ∈ ws.marked || (ws.v.fs (ws.upper ++ above)).any fun node => !node.isDir

/-- The files that the mount shows. -/
def files (p : Names) : Option Leaf :=
  match ws.v.fs (ws.upper ++ p) with
  | some node => leafOf node
  | none => if ws.isHidden p then none else ws.tree p

def upperExists : Bool := ws.v.exists? ws.upper []

/-- What the upper layer has, by the entry of the same path in the lower one. -/
def diffUpperVsLower : SnapshotResult :=
  let found := walk (ws.v.plainView ws.upper fun _ => true) ws.v.reach []
  let kept := found.filter fun p => ws.v.isWhiteoutFile ws.upper p = false
  { added := kept.filter fun p => ws.v.exists? ws.lower p = false
    modified := kept.filter fun p => ws.v.exists? ws.lower p = true
    deleted := found.filter fun p => ws.v.isWhiteoutFile ws.upper p = true }

def workName : Component := Component.lit "work"

/-- What the upper layer has, but for whiteouts and directories that are named `work`. -/
def scanUpperDirForDirty : Finset Names :=
  (walk (ws.v.plainView ws.upper fun name => name ≠ workName) ws.v.reach []).filter fun p =>
    ws.v.isWhiteoutFile ws.upper p = false

def snapshot : Except BackendError SnapshotResult :=
  if ws.upperExists then .ok ws.diffUpperVsLower else .error .notFound

def status : Except BackendError (Finset Names) :=
  if ws.upperExists then .ok ws.scanUpperDirForDirty else .error .notFound

end OverlayWorkspace

/-! ### The reflink backend -/

/-- The directory of the epoch and that of the workspace. -/
structure ReflinkWorkspace where
  v : Volume
  base : Names
  ws : Names
  ws_isDir : (v.fs ws).any Node.isDir = true

namespace ReflinkWorkspace

variable (ws : ReflinkWorkspace)

def Present : Prop := (ws.v.fs ws.base).any Node.isDir = true

def tree (p : Names) : Option Leaf := ws.v.leaf ws.base p

def files (p : Names) : Option Leaf := ws.v.leaf ws.ws p

/-- Names that are left out wherever they stand. -/
def excludedNames : Finset Component := {Component.lit ".maw-epoch"}

/-- The walk of a directory: links are followed, and what leads nowhere is not listed. -/
def view (root : Names) (exclude : Finset Component) : View Component where
  entries p := ws.v.entries root p
  enters p := p.getLast?.all (· ∉ exclude) && ws.v.isDir root p
  lists p := p.getLast?.all (· ∉ exclude) && ws.v.isFile root p

def collectFiles (root : Names) (exclude : Finset Component) : Finset Names :=
  walk (ws.view root exclude) ws.v.reach []

/-- Whether two files can be read and have the same bytes. -/
def filesEqual (p : Names) : Bool :=
  match ws.v.read ws.base p, ws.v.read ws.ws p with
  | some a, some b => a = b
  | _, _ => false

def diffDirs : SnapshotResult :=
  let baseFiles := if ws.v.exists? ws.base [] then ws.collectFiles ws.base ∅ else ∅
  let wsFiles := ws.collectFiles ws.ws excludedNames
  { added := wsFiles \ baseFiles
    modified := (wsFiles ∩ baseFiles).filter fun p => ws.filesEqual p = false
    deleted := baseFiles \ wsFiles }

def snapshot : Except BackendError SnapshotResult :=
  if ws.v.exists? ws.ws [] then .ok ws.diffDirs else .error .notFound

def status : Except BackendError (Finset Names) :=
  if ws.v.exists? ws.ws [] then .ok ws.diffDirs.all else .error .notFound

end ReflinkWorkspace

/-! ### The copy backend -/

/-- A directory below the root of the repository, the directory that the process runs in, the tree of the
epoch if git has it, the index of the root, how git prints a path, and the bytes of a link. -/
structure CopyWorkspace where
  v : Volume
  root : Names
  wsPath : Names
  cwd : Names
  epochTree : Option (FiniteMap Names Leaf)
  index : Finset Names
  printed : Names → Names
  linkBytes : LinkText Component → List UInt8
  dir_isDir : (v.fs (root ++ wsPath)).any Node.isDir = true
  plain : ∀ place, (v.fs place).any isWhiteout = false

namespace CopyWorkspace

variable (ws : CopyWorkspace)

def Present : Prop := ws.epochTree.isSome = true

def dir : Names := ws.root ++ ws.wsPath

def tree (p : Names) : Option Leaf := ws.epochTree.bind fun T => T.lookup p

def files (p : Names) : Option Leaf := ws.v.leaf ws.dir p

def bytes : Leaf → List UInt8
  | .regular content _ => content
  | .link text => ws.linkBytes text

/-- The answer of `git ls-tree`, and nothing if it fails. -/
def trackedFilesAtEpoch : Finset Names :=
  match ws.epochTree with
  | some T => T.keys.image ws.printed
  | none => ∅

def walkWorkspace : Finset Names := walk (ws.v.plainView ws.dir fun _ => true) ws.v.reach []

/-- The blob of the epoch against the file at the same path from the directory of the process. -/
def fileDiffersFromEpoch (p : Names) : Bool :=
  match ws.tree p with
  | some leaf => ws.bytes leaf ≠ (ws.v.read ws.cwd p).getD []
  | none => false

def diffEpoch : SnapshotResult :=
  let tracked := ws.trackedFilesAtEpoch.filter (· ≠ epochFile)
  { added := ws.walkWorkspace.filter fun p => p ≠ epochFile ∧ p ∉ ws.trackedFilesAtEpoch
    modified := tracked.filter fun p =>
      ws.v.exists? ws.dir p = true ∧ ws.fileDiffersFromEpoch p = true
    deleted := tracked.filter fun p => ws.v.exists? ws.dir p = false }

def snapshot : Except BackendError SnapshotResult :=
  if ws.v.exists? ws.dir [] then .ok ws.diffEpoch else .error .notFound

/-- What the worktree of the root has at a path that git tracks. -/
def inRoot (p : Names) : Option Leaf := if p ∈ ws.index then ws.v.leaf ws.root p else none

/-- The answer of `git diff --name-only` in the root for the directory of the workspace, and nothing if
it fails: only what the epoch or the index of the root tracks is compared. -/
def gitDiff : Finset Names :=
  match ws.epochTree with
  | some T => ((T.keys ∪ ws.index).filter fun p =>
      ws.wsPath.isPrefixOf p = true ∧ T.lookup p ≠ ws.inRoot p).image ws.printed
  | none => ∅

def status : Except BackendError (Finset Names) :=
  if ws.v.exists? ws.dir [] then .ok ws.gitDiff else .error .notFound

end CopyWorkspace

end Maw.BackendDiff
