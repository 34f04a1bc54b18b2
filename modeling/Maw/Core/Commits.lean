import Maw.Core.Repo
import Maw.Library.NodeStore

/-!
# Commits

The commits of a repository: each names a tree and its parents. A new commit is stored under an
id that no other commit has.

## Main definitions

* `Commit`, `CommitStore` — commits and where they are kept.
* `CommitStore.treeOf` — the tree of a commit.
* `AncestryTest` — a test of ancestry.
-/

namespace Maw

/-- A commit: a tree, in which no entry lies below another one, and the parents. -/
structure Commit where
  tree : GitTree
  parents : List GitOid
  prefixFree : TreePrefixFree tree
  deriving DecidableEq

/-- The commits of a repository. -/
abbrev CommitStore := NodeStore GitOid Commit Commit.parents

namespace CommitStore

/-- The tree of a commit; a missing commit has no files. -/
def treeOf (commits : CommitStore) (oid : GitOid) : GitTree :=
  ((commits.nodes.lookup oid).map Commit.tree).getD ∅

theorem treeOf_eq {commits : CommitStore} {oid : GitOid} {commit : Commit}
    (h : commits.nodes.lookup oid = some commit) : commits.treeOf oid = commit.tree := by
  rw [treeOf, h]
  rfl

theorem treeOf_adds {commits commits' : CommitStore} {oid : GitOid} {commit : Commit}
    (h : commits.Adds oid commit commits') : commits'.treeOf oid = commit.tree :=
  treeOf_eq h.lookup_self

theorem treeOf_prefixFree (commits : CommitStore) (oid : GitOid) :
    TreePrefixFree (commits.treeOf oid) := by
  rw [treeOf]
  rcases commits.nodes.lookup oid with _ | commit
  · exact treePrefixFree_iff.mpr fun p hp => absurd hp (by simp)
  · exact commit.prefixFree

end CommitStore

/-- A test of ancestry. -/
structure AncestryTest (commits : CommitStore) where
  isAncestor : GitOid → GitOid → Bool
  isAncestor_iff : ∀ {ancestor descendant}, isAncestor ancestor descendant = true ↔
    commits.IsAncestor ancestor descendant

/-! ### A small history -/

/-- A file at the top level. -/
def samplePath : Path := ⟨[Component.lit "a"], by decide⟩

/-- A tree of one file. -/
def oneFileTree (n : Nat) : GitTree := Finmap.singleton samplePath ⟨.blob, sampleBlob n⟩

theorem oneFileTree_prefixFree (n : Nat) : TreePrefixFree (oneFileTree n) := by
  rw [treePrefixFree_iff]
  simp [oneFileTree, Path.Above.irrefl]

/-- A commit of one file. -/
def sampleCommit (n : Nat) (parents : List GitOid) : Commit :=
  ⟨oneFileTree n, parents, oneFileTree_prefixFree n⟩

theorem first_not_mem : sampleBlob 1 ∉ (NodeStore.empty : CommitStore).nodes := by decide

theorem first_parents : ∀ j ∈ (sampleCommit 0 []).parents,
    j ∈ (NodeStore.empty : CommitStore).nodes := by decide

theorem second_not_mem : sampleBlob 2 ∉
    (NodeStore.empty.add (sampleBlob 1) (sampleCommit 0 []) first_not_mem first_parents :
      CommitStore).nodes := by decide

/-- A commit and another one on top of it. -/
def sampleCommits : CommitStore :=
  (NodeStore.empty.add (sampleBlob 1) (sampleCommit 0 []) (by decide) (by decide)).add
    (sampleBlob 2) (sampleCommit 10 [sampleBlob 1]) (by decide) (by decide)

theorem third_not_mem : sampleBlob 3 ∉ sampleCommits.nodes := by decide

/-- A history with a third commit that changes nothing. -/
def sampleThreeCommits : CommitStore :=
  sampleCommits.add (sampleBlob 3) (sampleCommit 10 [sampleBlob 2]) (by decide) (by decide)

/-- Its ancestry. -/
noncomputable def sampleAncestry : AncestryTest sampleThreeCommits where
  isAncestor a b := @decide (sampleThreeCommits.IsAncestor a b) (Classical.propDecidable _)
  isAncestor_iff := by simp

end Maw
