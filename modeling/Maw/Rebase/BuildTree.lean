import Mathlib.Data.Finset.Sort
import Maw.Core.Conflict
import Maw.Core.Repo
import Maw.Library.ExceptRun
import Maw.Library.SortedPrefix

/-!
# The tree of a conflict tree

After each step the conflict tree becomes a git tree: its conflicts are rendered into marker
files, and the entries are written over the tree of the new epoch. A git tree cannot hold a file
and a directory at one path, so the writer refuses an output in which one path lies below another.

## Main definitions

* `materialize` — the entries of a conflict tree, for any way of rendering a conflict.
* `writeBlobsAndBuildTree` — the tree with these entries.

## Main results

* `mem_materialize` — the entries are at the paths of the conflict tree.
* `writeBlobsAndBuildTree_ne_dfClash`, `prefixFree_of_writeBlobsAndBuildTree` — the writer refuses
  exactly the outputs that are not prefix-free.
-/

namespace Maw

/-- An entry of the output: a clean one, or the marker file of a conflict. -/
inductive FinalEntry
  | clean (mode : EntryMode) (oid : GitOid)
  | rendered (mode : EntryMode) (content : Bytes)
  deriving DecidableEq, Repr

abbrev MaterializedOutput := FiniteMap Path FinalEntry

inductive MaterializeError
  | unsupportedDivergentRename (path : Path)
  | readBlob (path : Path) (oid : GitOid)
  deriving DecidableEq, Repr

section Materialize

variable (render : Path → Conflict → Except MaterializeError Bytes)

/-- The marker file of a conflict. -/
def renderConflict (path : Path) (conflict : Conflict) : Except MaterializeError Bytes :=
  match conflict with
  | .divergentRename .. => throw (.unsupportedDivergentRename path)
  | _ => render path conflict

/-- The entries of a conflict tree; a conflict takes the place of a clean entry. -/
def materialize (tree : ConflictTree) : Except MaterializeError MaterializedOutput :=
  let clean : MaterializedOutput := tree.clean.sortedEntries.foldl
    (fun out e => out.insert e.1 (.clean e.2.mode e.2.oid)) ∅
  tree.conflicts.sortedEntries.foldlM (fun out e => do
    let content ← renderConflict render e.1 e.2
    pure (out.insert e.1 (.rendered .blob content))) clean

end Materialize

inductive BuildError
  | writeBlob (path : List Char)
  | dfClash (path child : List Char)
  | editTree
  deriving DecidableEq, Repr

section BuildTree

/-- The edit that puts an entry of the output into the tree. -/
def upsertOf (repo : Repo) (path : Path) : FinalEntry → Except BuildError TreeEdit
  | .clean mode oid => pure (.upsert path.treePath mode oid)
  | .rendered mode content =>
    match repo.writeBlobWithPath content path.treePath with
    | some oid => pure (.upsert path.treePath mode oid)
    | none => throw (.writeBlob path.treePath)

/-- The first of the paths from `path/` on, if it lies in the directory `path`. -/
def dirChild (paths : Finset (List Char)) (path : List Char) : Option (List Char) :=
  ((paths.sort (· ≤ ·)).find? fun s => path ++ ['/'] ≤ s).filter (path ++ ['/']).isPrefixOf

/-- Remove what the base tree has and the output has not. A file that became a directory is
replaced by the entries below it. -/
def removals (baseTree : GitTree) (paths : Finset (List Char)) : List TreeEdit :=
  ((baseTree.keys.image Path.slashed).sort (· ≤ ·)).filterMap fun path =>
    if path ∈ paths ∨ (dirChild paths path).isSome then none else some (.remove path)

/-- A path of the output that is a file and a directory at once. -/
def findDfClash (paths : Finset (List Char)) : Option (List Char × List Char) :=
  (paths.sort (· ≤ ·)).findSome? fun path => (dirChild paths path).map fun child => (path, child)

/-- Write the output over the base tree. -/
def writeBlobsAndBuildTree (repo : Repo) (baseTree : GitTree) (output : MaterializedOutput) :
    Except BuildError GitTree := do
  let upserts ← output.sortedEntries.mapM fun e => upsertOf repo e.1 e.2
  let finalPaths := output.keys.image Path.treePath
  match findDfClash finalPaths with
  | some (path, child) => throw (.dfClash path child)
  | none =>
    match repo.editTree baseTree (upserts ++ removals baseTree finalPaths) with
    | some tree => pure tree
    | none => throw .editTree

end BuildTree

section Output

variable {render : Path → Conflict → Except MaterializeError Bytes} {tree : ConflictTree}
  {repo : Repo} {baseTree : GitTree} {output : MaterializedOutput}

private theorem mem_foldl_insert {A ν : Type} (key : A → Path) (value : A → ν) (l : List A)
    (m : FiniteMap Path ν) (p : Path) :
    p ∈ l.foldl (fun m a => m.insert (key a) (value a)) m ↔ p ∈ l.map key ∨ p ∈ m := by
  induction l generalizing m with
  | nil => simp
  | cons a l ih =>
    rw [List.foldl_cons, ih, Finmap.mem_insert, List.map_cons, List.mem_cons]
    tauto

/-- The output has an entry at every path of the conflict tree and at no other. -/
theorem mem_materialize (h : materialize render tree = .ok output) (p : Path) :
    p ∈ output ↔ p ∈ tree.paths := by
  have hrun := ExceptRun.foldlM_induction
    (fun rest out => (p ∈ rest.map Prod.fst ∨ p ∈ out) ↔ p ∈ tree.paths)
    (fun e rest out out' hinv hstep => by
      obtain ⟨content, -, hout⟩ := ExceptRun.bind_eq_ok.mp hstep
      rw [ExceptRun.pure_eq_ok] at hout
      rw [← hout, Finmap.mem_insert, ← hinv, List.map_cons, List.mem_cons]
      tauto)
    (by
      rw [mem_foldl_insert, FiniteMap.mem_keys_sortedEntries, FiniteMap.mem_keys_sortedEntries]
      have hempty : p ∉ (∅ : MaterializedOutput) := Finmap.notMem_empty
      rw [or_iff_left hempty, or_comm]
      rfl) h
  simpa using hrun

/-- Some path lies in the directory `path` exactly when the first one from `path/` on does. -/
theorem dirChild_isSome {paths : Finset (List Char)} {path : List Char} :
    (dirChild paths path).isSome ↔ ∃ s ∈ paths, path ++ ['/'] <+: s := by
  have hsorted : (paths.sort (· ≤ ·)).Pairwise (· ≤ ·) := Finset.pairwise_sort paths _
  have hfind := SortedPrefix.find?_any_isPrefixOf hsorted (path ++ ['/'])
  rw [dirChild, Option.isSome_filter, hfind]
  simp only [Finset.mem_sort]

theorem findDfClash_eq_none {paths : Finset (List Char)} :
    findDfClash paths = none ↔ ∀ path ∈ paths, ∀ s ∈ paths, ¬ path ++ ['/'] <+: s := by
  simp only [findDfClash, List.findSome?_eq_none_iff, Finset.mem_sort, Option.map_eq_none_iff]
  refine forall₂_congr fun path _ => ?_
  rw [← Option.not_isSome_iff_eq_none, dirChild_isSome]
  push Not
  rfl

/-- For names without backslashes the writer finds a clash exactly when one path of the output
lies below another. -/
theorem findDfClash_eq_none_iff (hplain : ∀ p ∈ output, p.IsPlain) :
    findDfClash (output.keys.image Path.treePath) = none ↔ PrefixFree {p | p ∈ output} := by
  rw [findDfClash_eq_none]
  simp only [Finset.mem_image, Finmap.mem_keys, forall_exists_index, and_imp,
    forall_apply_eq_imp_iff₂]
  refine forall₂_congr fun p hp => forall₂_congr fun q hq => ?_
  rw [(hplain p hp).treePath, (hplain q hq).treePath, ← Path.isDirPrefixOf_iff,
    Path.isDirPrefixOf, List.isPrefixOf_iff_prefix]

/-- The writer accepts every output that is prefix-free. -/
theorem writeBlobsAndBuildTree_ne_dfClash (hplain : ∀ p ∈ output, p.IsPlain)
    (hfree : PrefixFree {p | p ∈ output}) (path child : List Char) :
    writeBlobsAndBuildTree repo baseTree output ≠ .error (.dfClash path child) := by
  intro h
  rw [writeBlobsAndBuildTree, ExceptRun.bind_eq_error] at h
  rcases h with h | ⟨upserts, -, h⟩
  · obtain ⟨⟨p, entry⟩, -, h⟩ := ExceptRun.mapM_eq_error h
    cases entry with
    | clean mode oid => exact ExceptRun.pure_ne_error h
    | rendered mode content =>
      simp only [upsertOf] at h
      split at h
      · exact ExceptRun.pure_ne_error h
      · cases h
  · simp only [(findDfClash_eq_none_iff hplain).mpr hfree] at h
    split at h
    · exact ExceptRun.pure_ne_error h
    · cases h

/-- It writes no other. -/
theorem prefixFree_of_writeBlobsAndBuildTree (hplain : ∀ p ∈ output, p.IsPlain) {tree : GitTree}
    (h : writeBlobsAndBuildTree repo baseTree output = .ok tree) :
    PrefixFree {p | p ∈ output} := by
  rw [← findDfClash_eq_none_iff hplain]
  simp only [writeBlobsAndBuildTree, ExceptRun.bind_eq_ok] at h
  obtain ⟨upserts, -, h⟩ := h
  cases hclash : findDfClash (output.keys.image Path.treePath) with
  | none => rfl
  | some clash => simp [hclash] at h

end Output

end Maw
