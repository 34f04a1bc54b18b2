import Mathlib.Data.Prod.Lex
import Maw.Core.Types
import Maw.Library.KeyedSort
import Maw.Library.SortedPrefix

/-!
# Partition of the changes of many workspaces

A merge sorts the changes of its workspaces by path: a path that one change speaks about is
unique, every other one is shared. Beside this it looks for file and directory clashes: a path
that some change leaves as a file while another change leaves a file below it.

## Main definitions

* `PathEntry`, `entriesAt` — the changes of a path.
* `firstBelow`, `nearestFile` — the two searches for clashes.
* `partitionByPath` — the partition.
* `FileClash` — the clashes that the partition finds.

## Main results

* `mem_unique`, `mem_shared` — the two parts of the partition.
* `exists_mem_dfClashes_iff` — the clashes of the partition are those of `FileClash`.
-/

open KeyedSort

namespace Maw

/-- The change of one workspace to a path. -/
structure PathEntry where
  workspaceId : WorkspaceId
  kind : ChangeKind
  content : Option Bytes
  fileId : Option FileId
  blob : Option GitOid
  mode : Option EntryMode
  deriving DecidableEq, Repr

/-- Whether the change is a deletion. -/
def PathEntry.isDeletion (e : PathEntry) : Bool := e.kind = .deleted

/-- A path that is a file for one workspace and a directory for another one. -/
structure DfClash where
  filePath : Path
  fileWs : WorkspaceId
  dirChildExample : Path
  dirWs : WorkspaceId
  deriving DecidableEq, Repr

structure PartitionResult where
  unique : List (Path × PathEntry)
  shared : List (Path × List PathEntry)
  dfClashes : List DfClash
  deriving DecidableEq, Repr

/-- All paths that take part in a clash. -/
def PartitionResult.dfClashPaths (partition : PartitionResult) : List Path :=
  partition.dfClashes.flatMap fun clash => [clash.filePath, clash.dirChildExample]

section Definitions

def PathEntry.withMode (workspaceId : WorkspaceId) (change : FileChange) : PathEntry :=
  ⟨workspaceId, change.kind, change.content, change.fileId, change.blob, change.mode⟩

/-- Add a change to the changes of its path. -/
def indexChange (workspaceId : WorkspaceId) (index : FiniteMap Path (List PathEntry))
    (change : FileChange) : FiniteMap Path (List PathEntry) :=
  index.insert change.path
    ((index.lookup change.path).getD [] ++ [.withMode workspaceId change])

/-- The changes of all patch sets by their paths. -/
def pathIndex (patchSets : List PatchSet) : FiniteMap Path (List PathEntry) :=
  patchSets.foldl (fun index ps => ps.changes.foldl (indexChange ps.workspaceId) index) ∅

/-- A path with one change. -/
def asUnique : Path × List PathEntry → Option (Path × PathEntry)
  | (p, [e]) => some (p, e)
  | _ => none

/-- The changes of a path in the order of their workspaces. -/
def byWorkspace (entries : List PathEntry) : List PathEntry :=
  entries.insertionSort fun a b => a.workspaceId.name.toList ≤ b.workspaceId.name.toList

/-- A path with more changes. -/
def asShared : Path × List PathEntry → Option (Path × List PathEntry)
  | (_, [_]) => none
  | (p, entries) => some (p, byWorkspace entries)

/-- A path that a change leaves as a file, with its text. -/
structure FileRow where
  text : List Char
  path : Path
  workspaceId : WorkspaceId
  deriving DecidableEq, Repr

/-- Clashes are told apart and ordered by their two paths. -/
def DfClash.key (clash : DfClash) : Path ×ₗ Path := toLex (clash.filePath, clash.dirChildExample)

/-- The sorting and searching routines of the standard library. They leave the order of items
with equal keys open, and which of several such items a bisection finds. -/
structure SliceRoutines where
  sortRows : SortBy FileRow.text
  binarySearch : SearchBy FileRow.text
  sortClashes : SortBy DfClash.key

variable (routines : SliceRoutines)

def fileRow (p : Path) (e : PathEntry) : FileRow := ⟨p.treePath, p, e.workspaceId⟩

/-- The files that the changes leave, in the order of their texts. -/
def allPathWs (unique : List (Path × PathEntry)) (shared : List (Path × List PathEntry)) :
    List FileRow :=
  routines.sortRows.sort
    (((unique.filter fun u => !u.2.isDeletion).map fun u => fileRow u.1 u.2) ++
      shared.flatMap fun s => (s.2.filter fun e => !e.isDeletion).map (fileRow s.1))

/-- Whether a file lies in the directory `p`. -/
def FileRow.isBelow (p : Path) (row : FileRow) : Bool :=
  row.text ≠ p.treePath && (p.treePath ++ ['/']).isPrefixOf row.text

/-- The first file in the directory `p`. -/
def firstBelow (rows : List FileRow) (p : Path) : Option FileRow := rows.find? (FileRow.isBelow p)

/-- The file that is the nearest parent of `p`. -/
def nearestFile (rows : List FileRow) (p : Path) : Option FileRow :=
  p.ancestors.findSome? fun a => routines.binarySearch.search rows a.treePath

/-- The clashes of a path with one change: with a file below it, and with a file above it. -/
def clashesOf (rows : List FileRow) (u : Path × PathEntry) : List DfClash :=
  if u.2.isDeletion then []
  else
    ((firstBelow rows u.1).map fun r => ⟨u.1, u.2.workspaceId, r.path, r.workspaceId⟩).toList ++
      ((nearestFile routines rows u.1).map fun r =>
        ⟨r.path, r.workspaceId, u.1, u.2.workspaceId⟩).toList

def partitionByPath (patchSets : List PatchSet) : PartitionResult :=
  let index := (pathIndex patchSets).sortedEntries
  let unique := index.filterMap asUnique
  let shared := index.filterMap asShared
  let rows := allPathWs routines unique shared
  { unique := unique
    shared := shared
    dfClashes := dedupBy DfClash.key
      (routines.sortClashes.sort (unique.flatMap (clashesOf routines rows))) }

end Definitions

/-! ### The index of the changes -/

section Index

variable {patchSets : List PatchSet} {p : Path} {e : PathEntry} {es : List PathEntry}

/-- The changes of one patch set to a path. -/
def PatchSet.entriesAt (ps : PatchSet) (p : Path) : List PathEntry :=
  (ps.changes.filter fun c => c.path = p).map (.withMode ps.workspaceId)

/-- The changes of a path, in the order of the patch sets. -/
def entriesAt (patchSets : List PatchSet) (p : Path) : List PathEntry :=
  patchSets.flatMap fun ps => ps.entriesAt p

/-- A path that some patch set changes. -/
def Touched (patchSets : List PatchSet) (p : Path) : Prop := entriesAt patchSets p ≠ []

instance : Decidable (Touched patchSets p) := inferInstanceAs (Decidable (¬ _))

theorem lookup_indexChange (w : WorkspaceId) (index : FiniteMap Path (List PathEntry))
    (c : FileChange) :
    (indexChange w index c).lookup p =
      if c.path = p then some ((index.lookup p).getD [] ++ [.withMode w c]) else index.lookup p := by
  rw [indexChange, FiniteMap.lookup_insert]
  by_cases h : c.path = p
  · subst h
    rw [if_pos rfl]
  · rw [if_neg h, if_neg (Ne.symm h)]

/-- The index lists the changes seen so far, and has no path without changes. -/
def Indexes (index : FiniteMap Path (List PathEntry)) (f : Path → List PathEntry) : Prop :=
  ∀ p, index.lookup p = if f p = [] then none else some (f p)

theorem Indexes.changes (w : WorkspaceId) (changes : List FileChange) :
    ∀ {index : FiniteMap Path (List PathEntry)} {f : Path → List PathEntry}, Indexes index f →
      Indexes (changes.foldl (indexChange w) index) fun p =>
        f p ++ (changes.filter fun c => c.path = p).map (.withMode w) := by
  induction changes with
  | nil =>
    intro index f h
    simpa using h
  | cons c changes ih =>
    intro index f h
    have hstep : Indexes (indexChange w index c) fun p =>
        f p ++ if c.path = p then [.withMode w c] else [] := by
      intro p
      rw [lookup_indexChange, h p]
      by_cases hp : c.path = p
      · by_cases hf : f p = [] <;> simp [hp, hf]
      · simp [hp]
    intro p
    rw [List.foldl_cons, ih hstep p]
    by_cases hp : c.path = p <;> simp [hp]

theorem indexes_pathIndex (patchSets : List PatchSet) :
    Indexes (pathIndex patchSets) (entriesAt patchSets) := by
  have hrun : ∀ (l : List PatchSet) index (f : Path → List PathEntry), Indexes index f →
      Indexes (l.foldl (fun index ps => ps.changes.foldl (indexChange ps.workspaceId) index) index)
        fun p => f p ++ entriesAt l p := by
    intro l
    induction l with
    | nil =>
      intro index f h
      simpa [entriesAt] using h
    | cons ps l ih =>
      intro index f h
      have hps := ih _ _ (h.changes ps.workspaceId ps.changes)
      intro p
      rw [List.foldl_cons, hps p]
      simp [entriesAt, PatchSet.entriesAt, List.append_assoc]
  have hempty : Indexes ∅ fun _ => [] := fun p => by simp
  exact hrun patchSets ∅ _ hempty

theorem mem_index_iff : (p, es) ∈ (pathIndex patchSets).sortedEntries ↔
    entriesAt patchSets p = es ∧ es ≠ [] := by
  rw [FiniteMap.mem_sortedEntries, indexes_pathIndex patchSets p]
  by_cases h : entriesAt patchSets p = []
  · rw [if_pos h, h]
    constructor
    · exact fun he => absurd he (by simp)
    · rintro ⟨rfl, hne⟩
      exact absurd rfl hne
  · rw [if_neg h, Option.some.injEq]
    exact ⟨fun he => ⟨he, he ▸ h⟩, And.left⟩

/-- The paths with one change are unique. -/
theorem mem_unique (routines : SliceRoutines) :
    (p, e) ∈ (partitionByPath routines patchSets).unique ↔ entriesAt patchSets p = [e] := by
  rw [partitionByPath, List.mem_filterMap]
  constructor
  · rintro ⟨⟨q, es⟩, hmem, h⟩
    obtain ⟨hes, -⟩ := mem_index_iff.mp hmem
    match es with
    | [e'] =>
      obtain ⟨rfl, rfl⟩ : q = p ∧ e' = e := by simpa [asUnique] using h
      exact hes
    | [] | _ :: _ :: _ => simp [asUnique] at h
  · exact fun h => ⟨(p, [e]), mem_index_iff.mpr ⟨h, by simp⟩, rfl⟩

/-- The paths with more changes are shared. -/
theorem mem_shared (routines : SliceRoutines) :
    (p, es) ∈ (partitionByPath routines patchSets).shared ↔
      es = byWorkspace (entriesAt patchSets p) ∧ 2 ≤ (entriesAt patchSets p).length := by
  rw [partitionByPath, List.mem_filterMap]
  constructor
  · rintro ⟨⟨q, es'⟩, hmem, h⟩
    obtain ⟨hes, hne⟩ := mem_index_iff.mp hmem
    match es' with
    | [] => exact absurd rfl hne
    | [_] => simp [asShared] at h
    | e₁ :: e₂ :: l =>
      obtain ⟨rfl, rfl⟩ : q = p ∧ byWorkspace (e₁ :: e₂ :: l) = es := by simpa [asShared] using h
      rw [hes]
      exact ⟨rfl, by simp⟩
  · rintro ⟨rfl, hlen⟩
    refine ⟨(p, entriesAt patchSets p), mem_index_iff.mpr ⟨rfl, ?_⟩, ?_⟩
    · exact List.ne_nil_of_length_pos (by omega)
    · match h : entriesAt patchSets p with
      | [] | [_] => simp [h] at hlen
      | _ :: _ :: _ => rfl

theorem mem_byWorkspace : e ∈ byWorkspace es ↔ e ∈ es := (List.perm_insertionSort _ _).mem_iff

end Index

/-! ### The files that the changes leave -/

section Files

variable {routines : SliceRoutines} {patchSets : List PatchSet} {p q : Path} {e : PathEntry}
  {row : FileRow}

/-- A path that some change leaves as a file. -/
def IsLive (patchSets : List PatchSet) (p : Path) : Prop :=
  ∃ e ∈ entriesAt patchSets p, e.isDeletion = false

/-- A path with one change, which leaves it as a file. -/
def IsLone (patchSets : List PatchSet) (p : Path) : Prop :=
  ∃ e, entriesAt patchSets p = [e] ∧ e.isDeletion = false

instance : DecidablePred (IsLive patchSets) := fun _ => inferInstanceAs (Decidable (∃ _ ∈ _, _))

theorem touched_iff : Touched patchSets p ↔
    ∃ ps ∈ patchSets, ∃ c ∈ ps.changes, c.path = p := by
  rw [Touched, entriesAt, Ne, List.flatMap_eq_nil_iff]
  simp [PatchSet.entriesAt, List.filter_eq_nil_iff]

theorem IsLive.touched (h : IsLive patchSets p) : Touched patchSets p := by
  obtain ⟨e, he, -⟩ := h
  exact List.ne_nil_of_mem he

theorem IsLone.isLive (h : IsLone patchSets p) : IsLive patchSets p := by
  obtain ⟨e, he, hlive⟩ := h
  exact ⟨e, by simp [he], hlive⟩

/-- The rows that the two searches for clashes see. -/
def rowsOf (routines : SliceRoutines) (patchSets : List PatchSet) : List FileRow :=
  allPathWs routines (partitionByPath routines patchSets).unique
    (partitionByPath routines patchSets).shared

theorem rowsOf_sorted (routines : SliceRoutines) (patchSets : List PatchSet) :
    (rowsOf routines patchSets).Pairwise fun a b => a.text ≤ b.text :=
  routines.sortRows.sorted _

/-- There is a row for each change that leaves a file. -/
theorem mem_rowsOf : row ∈ rowsOf routines patchSets ↔
    ∃ p, ∃ e ∈ entriesAt patchSets p, e.isDeletion = false ∧ fileRow p e = row := by
  rw [rowsOf, allPathWs, SortBy.mem_sort, List.mem_append, List.mem_map, List.mem_flatMap]
  constructor
  · rintro (⟨⟨p, e⟩, hmem, hrow⟩ | ⟨⟨p, es⟩, hmem, hrow⟩)
    · obtain ⟨hu, hlive⟩ := List.mem_filter.mp hmem
      exact ⟨p, e, by simp [(mem_unique routines).mp hu], by simpa using hlive, hrow⟩
    · obtain ⟨e, he, hrow⟩ := List.mem_map.mp hrow
      obtain ⟨he, hlive⟩ := List.mem_filter.mp he
      obtain ⟨rfl, -⟩ := (mem_shared routines).mp hmem
      exact ⟨p, e, mem_byWorkspace.mp he, by simpa using hlive, hrow⟩
  · rintro ⟨p, e, he, hlive, hrow⟩
    by_cases hlen : 2 ≤ (entriesAt patchSets p).length
    · refine .inr ⟨(p, _), (mem_shared routines).mpr ⟨rfl, hlen⟩, List.mem_map.mpr ⟨e, ?_, hrow⟩⟩
      exact List.mem_filter.mpr ⟨mem_byWorkspace.mpr he, by simpa using hlive⟩
    · have hone : entriesAt patchSets p = [e] := by
        match h : entriesAt patchSets p with
        | [] => simp [h] at he
        | [_] => simpa [h, eq_comm] using he
        | _ :: _ :: _ => simp [h] at hlen
      have hu := (mem_unique routines).mpr hone
      exact .inl ⟨(p, e), List.mem_filter.mpr ⟨hu, by simpa using hlive⟩, hrow⟩

theorem isLive_of_mem_rowsOf (h : row ∈ rowsOf routines patchSets) :
    IsLive patchSets row.path ∧ row.text = row.path.treePath := by
  obtain ⟨p, e, he, hlive, rfl⟩ := mem_rowsOf.mp h
  exact ⟨⟨e, he, hlive⟩, rfl⟩

variable (routines) in
theorem exists_row (h : IsLive patchSets p) :
    ∃ row ∈ rowsOf routines patchSets, row.path = p ∧ row.text = p.treePath := by
  obtain ⟨e, he, hlive⟩ := h
  exact ⟨fileRow p e, mem_rowsOf.mpr ⟨p, e, he, hlive, rfl⟩, rfl, rfl⟩

end Files

/-! ### The clashes that the partition finds -/

section Clashes

variable {routines : SliceRoutines} {patchSets : List PatchSet} {f c p : Path} {clash : DfClash}

/-- The file `c` is the first one in the directory `f`. -/
def FoundBelow (routines : SliceRoutines) (patchSets : List PatchSet) (f c : Path) : Prop :=
  ∃ row, firstBelow (rowsOf routines patchSets) f = some row ∧ row.path = c

/-- The file `f` is what the search finds at the nearest parent of `c` that is written like a
file. -/
def FoundAbove (routines : SliceRoutines) (patchSets : List PatchSet) (f c : Path) : Prop :=
  ∃ (a : Path) (row : FileRow), a.Above c ∧
    routines.binarySearch.search (rowsOf routines patchSets) a.treePath = some row ∧
    row.path = f ∧
    ∀ b : Path, b.Above c → a.Above b → ∀ g, IsLive patchSets g → g.treePath ≠ b.treePath

/-- The file `f` stands in the way of the file `c`, as the partition sees it: one of the two
paths has one change, and the search from there finds the other one. -/
def FileClash (routines : SliceRoutines) (patchSets : List PatchSet) (f c : Path) : Prop :=
  IsLone patchSets f ∧ FoundBelow routines patchSets f c ∨
    IsLone patchSets c ∧ FoundAbove routines patchSets f c

theorem FoundBelow.isLive (h : FoundBelow routines patchSets f c) : IsLive patchSets c := by
  obtain ⟨row, hrow, rfl⟩ := h
  exact (isLive_of_mem_rowsOf (List.mem_of_find?_eq_some hrow)).1

theorem FoundAbove.isLive (h : FoundAbove routines patchSets f c) : IsLive patchSets f := by
  obtain ⟨a, row, -, hsearch, rfl, -⟩ := h
  exact (isLive_of_mem_rowsOf (routines.binarySearch.sound hsearch).1).1

theorem FileClash.isLive (h : FileClash routines patchSets f c) :
    IsLive patchSets f ∧ IsLive patchSets c := by
  rcases h with ⟨hf, hc⟩ | ⟨hc, hf⟩
  · exact ⟨hf.isLive, hc.isLive⟩
  · exact ⟨hf.isLive, hc.isLive⟩

theorem FileRow.isBelow_iff {row : FileRow} :
    row.isBelow f = true ↔ f.treePath ++ ['/'] <+: row.text := by
  rw [isBelow, Bool.and_eq_true, decide_eq_true_iff, List.isPrefixOf_iff_prefix,
    and_iff_right_iff_imp]
  intro h heq
  have hlen := h.length_le
  rw [heq, List.length_append, List.length_singleton] at hlen
  omega

variable (routines) in
/-- Below a path with one change some file is found as soon as there is one. -/
theorem exists_foundBelow (hc : IsLive patchSets c) (h : f.Above c) :
    ∃ d, FoundBelow routines patchSets f d := by
  obtain ⟨row, hrow, -, htext⟩ := exists_row routines hc
  have hsome : (firstBelow (rowsOf routines patchSets) f).isSome :=
    List.find?_isSome.mpr ⟨row, hrow, FileRow.isBelow_iff.mpr (htext ▸ h.treePath_prefix)⟩
  obtain ⟨r, hr⟩ := Option.isSome_iff_exists.mp hsome
  exact ⟨r.path, r, hr, rfl⟩

theorem search_eq_none_iff {t : List Char} :
    routines.binarySearch.search (rowsOf routines patchSets) t = none ↔
      ∀ g, IsLive patchSets g → g.treePath ≠ t := by
  rw [SearchBy.search_eq_none_iff _ (rowsOf_sorted routines patchSets)]
  constructor
  · intro h g hg
    obtain ⟨row, hrow, -, htext⟩ := exists_row routines hg
    exact htext ▸ h row hrow
  · intro h row hrow
    obtain ⟨hlive, htext⟩ := isLive_of_mem_rowsOf hrow
    exact htext ▸ h row.path hlive

theorem nearestFile_iff {row : FileRow} :
    nearestFile routines (rowsOf routines patchSets) c = some row ↔
      ∃ a : Path, a.Above c ∧
        routines.binarySearch.search (rowsOf routines patchSets) a.treePath = some row ∧
        ∀ b : Path, b.Above c → a.Above b → ∀ g, IsLive patchSets g →
          g.treePath ≠ b.treePath := by
  rw [nearestFile, findSome?_eq_some_iff_of_pairwise c.ancestors_pairwise fun _ _ h => h.asymm]
  simp only [Path.mem_ancestors, search_eq_none_iff]

theorem mem_clashesOf {rows : List FileRow} {e : PathEntry} :
    clash ∈ clashesOf routines rows (p, e) ↔ e.isDeletion = false ∧
      ((∃ row, firstBelow rows p = some row ∧
          clash = ⟨p, e.workspaceId, row.path, row.workspaceId⟩) ∨
        ∃ row, nearestFile routines rows p = some row ∧
          clash = ⟨row.path, row.workspaceId, p, e.workspaceId⟩) := by
  cases he : e.isDeletion <;> simp [clashesOf, he, eq_comm]

theorem dfClashes_eq (routines : SliceRoutines) (patchSets : List PatchSet) :
    (partitionByPath routines patchSets).dfClashes = dedupBy DfClash.key
      (routines.sortClashes.sort ((partitionByPath routines patchSets).unique.flatMap
        (clashesOf routines (rowsOf routines patchSets)))) := rfl

theorem mem_dfClashes (h : clash ∈ (partitionByPath routines patchSets).dfClashes) :
    ∃ p e, entriesAt patchSets p = [e] ∧
      clash ∈ clashesOf routines (rowsOf routines patchSets) (p, e) := by
  rw [dfClashes_eq] at h
  have hmem := routines.sortClashes.mem_sort.mp ((dedupBy_sublist _).subset h)
  obtain ⟨⟨p, e⟩, hu, hclash⟩ := List.mem_flatMap.mp hmem
  exact ⟨p, e, (mem_unique routines).mp hu, hclash⟩

theorem exists_mem_dfClashes {e : PathEntry} (he : entriesAt patchSets p = [e])
    (h : clash ∈ clashesOf routines (rowsOf routines patchSets) (p, e)) :
    ∃ k ∈ (partitionByPath routines patchSets).dfClashes,
      k.filePath = clash.filePath ∧ k.dirChildExample = clash.dirChildExample := by
  have hmem := routines.sortClashes.mem_sort.mpr
    (List.mem_flatMap.mpr ⟨(p, e), (mem_unique routines).mpr he, h⟩)
  obtain ⟨k, hk, hkey⟩ := exists_mem_dedupBy DfClash.key hmem
  rw [← dfClashes_eq] at hk
  exact ⟨k, hk, Prod.mk.inj (toLex.injective hkey)⟩

/-- The clashes of the partition. -/
theorem exists_mem_dfClashes_iff :
    (∃ k ∈ (partitionByPath routines patchSets).dfClashes,
      k.filePath = f ∧ k.dirChildExample = c) ↔ FileClash routines patchSets f c := by
  constructor
  · rintro ⟨clash, hmem, rfl, rfl⟩
    obtain ⟨p, e, he, hclash⟩ := mem_dfClashes hmem
    obtain ⟨hlive, ⟨row, hrow, rfl⟩ | ⟨row, hrow, rfl⟩⟩ := mem_clashesOf.mp hclash
    · exact .inl ⟨⟨e, he, hlive⟩, row, hrow, rfl⟩
    · obtain ⟨a, ha, hsearch, hnear⟩ := nearestFile_iff.mp hrow
      exact .inr ⟨⟨e, he, hlive⟩, a, row, ha, hsearch, rfl, hnear⟩
  · rintro (⟨⟨e, he, hlive⟩, row, hrow, rfl⟩ |
      ⟨⟨e, he, hlive⟩, a, row, ha, hsearch, rfl, hnear⟩)
    · exact exists_mem_dfClashes he (mem_clashesOf.mpr ⟨hlive, .inl ⟨row, hrow, rfl⟩⟩)
    · have hrow := nearestFile_iff.mpr ⟨a, ha, hsearch, hnear⟩
      exact exists_mem_dfClashes he (mem_clashesOf.mpr ⟨hlive, .inr ⟨row, hrow, rfl⟩⟩)

end Clashes

end Maw
