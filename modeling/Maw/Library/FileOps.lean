import Maw.Library.LinkTree

/-!
# Operations on trees of files

What the calls of a file system do to a tree: a rename moves what stands at and below a place, a
removal may stop halfway, and the creation of a directory adds the ones above it that are missing.

## Main definitions

* `LinkTree.followed` — the node that a path leads to.
* `LinkTree.moved`, `LinkTree.removed` — trees after a rename and after a removal.
* `LinkTree.Renamable` — when a rename succeeds.
* `LinkTree.Thinned`, `LinkTree.DirsAdded`, `LinkTree.OnlyBelow` — what else may become of a tree.

## Main results

* `LinkTree.moved_dst`, `LinkTree.moved_other` — what a rename moves, and what it leaves.
* `LinkTree.child_prefix_iff` — what stands at and below a child of a place.
-/

namespace LinkTree

variable {ν β : Type*}

/-- The node that a path leads to, through so many links at most. -/
def followed (fs : Tree ν β) (links : ℕ) (place : List ν) : Option (Node ν β) :=
  (resolve fs links [] (place.map .down)).bind fs

section Operations

variable [DecidableEq ν]

/-- Without what stands at and below a place. -/
def removed (fs : Tree ν β) (place : List ν) : Tree ν β :=
  fun p => if place <+: p then none else fs p

/-- With what stands at and below one place moved to another one, in the place of what is there. -/
def moved (fs : Tree ν β) (src dst : List ν) : Tree ν β :=
  fun p =>
    if dst <+: p then fs (src ++ p.drop dst.length)
    else if src <+: p then none
    else fs p

end Operations

/-- A directory without entries. -/
def IsEmptyDir (fs : Tree ν β) (place : List ν) : Prop :=
  (fs place).any Node.isDir ∧ ∀ below, below ≠ [] → fs (place ++ below) = none

/-- A rename succeeds into a directory, onto nothing, from a directory onto an empty one, and from
a file or link onto another one. -/
def Renamable (fs : Tree ν β) (src dst : List ν) : Prop :=
  (fs src).isSome ∧ (fs dst.dropLast).any Node.isDir ∧ ¬ src <+: dst ∧
    ((∀ below, fs (dst ++ below) = none) ∨
      ((fs src).any Node.isDir ∧ IsEmptyDir fs dst) ∨
      ∃ node node', fs src = some node ∧ fs dst = some node' ∧ node.isDir = false ∧
        node'.isDir = false)

/-- A tree in which some of what stands at and below a place is gone. -/
def Thinned (place : List ν) (fs fs' : Tree ν β) : Prop :=
  (∀ p, ¬ place <+: p → fs' p = fs p) ∧ ∀ p, fs' p = none ∨ fs' p = fs p

/-- A tree with more directories. -/
def DirsAdded (fs fs' : Tree ν β) : Prop :=
  ∀ p, fs' p = fs p ∨ fs p = none ∧ (fs' p).any Node.isDir

/-- A tree that is another one at and below a place at most. -/
def OnlyBelow (place : List ν) (fs fs' : Tree ν β) : Prop := ∀ p, ¬ place <+: p → fs' p = fs p

variable {fs fs' : Tree ν β} {place src dst below p : List ν}

theorem Thinned.onlyBelow (h : Thinned place fs fs') : OnlyBelow place fs fs' := h.1

theorem DirsAdded.of_some {node : Node ν β} (h : DirsAdded fs fs') (hp : fs p = some node) :
    fs' p = some node := by
  rcases h p with heq | ⟨hnone, -⟩
  · rw [heq, hp]
  · rw [hp] at hnone
    cases hnone

section Operations

variable [DecidableEq ν]

theorem removed_onlyBelow (fs : Tree ν β) (place : List ν) :
    OnlyBelow place fs (removed fs place) :=
  fun _ hp => if_neg hp

theorem moved_dst (fs : Tree ν β) (src dst below : List ν) :
    moved fs src dst (dst ++ below) = fs (src ++ below) := by
  rw [moved, if_pos (List.prefix_append _ _), List.drop_left]

theorem moved_other (hdst : ¬ dst <+: p) (hsrc : ¬ src <+: p) : moved fs src dst p = fs p := by
  rw [moved, if_neg hdst, if_neg hsrc]

end Operations

/-- A child of a place, and what stands at or below a child of a place as deep as it. -/
theorem child_prefix_iff {a b : List ν} (hlength : a.length = b.length) {n m : ν} :
    a ++ [n] <+: b ++ m :: below ↔ a = b ∧ n = m := by
  constructor
  · rintro ⟨rest, hrest⟩
    rw [List.append_assoc, List.singleton_append] at hrest
    obtain ⟨rfl, htail⟩ := List.append_inj hrest hlength
    exact ⟨rfl, (List.cons.inj htail).1⟩
  · rintro ⟨rfl, rfl⟩
    exact ⟨below, by rw [List.append_assoc, List.singleton_append]⟩

end LinkTree
