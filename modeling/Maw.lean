import Maw.Rebase.KeepsEpoch
import Maw.Rebase.Squash
import Maw.Rebase.ConflictSides
import Maw.Rebase.BuildTree
import Maw.Rebase.PrefixFree
import Maw.Merge.Realizable
import Maw.Merge.StaleAdd
import Maw.Commit.Concurrent
import Maw.Quarantine.AllOrNothing
import Maw.Worktree.Capture
import Maw.Oplog.Compact
import Maw.Oplog.Append
import Maw.Oplog.Causal
import Maw.Oplog.Join
import Maw.Oplog.GlobalView
import Maw.Merge.Abort
import Maw.Merge.Collect
import Maw.Merge.ConflictIds
import Maw.Merge.FfAbsorb
import Maw.Merge.Folding
import Maw.Merge.AstLossless
import Maw.Changes.Exclusive
import Maw.Changes.Commands
import Maw.Changes.Effects
import Maw.Changes.Serial
import Maw.Changes.Serializable
import Maw.Changes.Failures
import Maw.Changes.Retry
import Maw.Worktree.DirtyReplay
import Maw.Merge.Drivers
import Maw.Rebase.NeverAbandon
import Maw.Oplog.UndoHistory
import Maw.Recovery.Cleanup
import Maw.Recovery.RefGc
import Maw.Rebase.InvariantAudit
import Maw.Rebase.BaseEpoch
import Maw.Worktree.SnapshotExact
import Maw.Worktree.StatusItems
import Maw.Worktree.Clean
import Maw.Recovery.UndoMerge
import Maw.Worktree.CheckoutTree
import Maw.Oplog.Transport
import Maw.Oplog.Sync
import Maw.Recovery.EpochMoves
import Maw.Recovery.Baseline
import Maw.Recovery.EpochRewind
import Maw.Backend.OverlayStore
import Maw.Backend.SnapshotLife
import Maw.Backend.DiffExact
import Maw.Backend.Attach
import Maw.Backend.AttachKeeps
import Maw.Lfs.PointerCodec
import Maw.Lfs.Attrs
import Maw.Lfs.Store
import Maw.Lfs.Smudge
import Maw.Lfs.TreeScan
import Maw.Lfs.NewCommits
import Maw.Lfs.Push
import Maw.Merge.FileIdMap
import Maw.Merge.Diff3Atoms
import Maw.Merge.RenameAware
import Maw.Merge.RenameFiles
import Maw.Merge.RenameKeeps
import Maw.Merge.ReplayedFold
import Maw.Merge.MarkerResolution
import Maw.Merge.KeepUnion
import Maw.Merge.ShiftedKeeps
import Maw.Recovery.DestroyRace
import Maw.Worktree.SnapshotKeeps
import Maw.Merge.WriteTree
import Maw.Recovery.RecordFiles
import Maw.Recovery.LatestRecord
import Maw.Merge.ResolveOrder
import Maw.Merge.ResolveDetail
import Maw.Merge.AstLadder
import Maw.Merge.AstDisabled
import Maw.Merge.FileModes
import Maw.Rebase.ModeMerge
