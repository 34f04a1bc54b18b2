import Maw.Worktree.StateCommit

/-!
# Staging a worktree

`git add -A` makes the index the state of the worktree, except below the paths that it is told to
leave out. It refuses an embedded repository in which no commit is checked out. The staged index
is then written as a tree, entry by entry.

## Main definitions

* `Worktree.Refused`, `CoveredBy` — what git refuses, and what it is told to leave out.
* `Worktree.stagedIndex` — the index after `git add -A`.
* `Worktree.isDirty` — whether a tracked path differs from the commit.
* `writeIndexTree` — the tree of an index.

## Main results

* `lookup_writeIndexTree` — the tree has the entries of the index.
-/

open KeyedSort

namespace Maw

/-- The path is one of the excluded ones or below one of them. -/
def CoveredBy (excluded : List Path) (p : Path) : Prop := ∃ e ∈ excluded, p = e ∨ e.Above p

instance (excluded : List Path) (p : Path) : Decidable (CoveredBy excluded p) :=
  inferInstanceAs (Decidable (∃ e ∈ excluded, _ ∨ _))

/-- The code's test for a path below an excluded one, on the written paths. -/
def pathIsUnderExcluded (p excluded : Path) : Bool :=
  p.slashed = excluded.slashed || excluded.isDirPrefixOf p

theorem any_pathIsUnderExcluded {excluded : List Path} {p : Path} :
    excluded.any (pathIsUnderExcluded p) = true ↔ CoveredBy excluded p := by
  rw [List.any_eq_true]
  refine exists_congr fun e => and_congr_right fun _ => ?_
  rw [pathIsUnderExcluded, Bool.or_eq_true, decide_eq_true_iff, Path.slashed_injective.eq_iff,
    Path.isDirPrefixOf_iff]

namespace Worktree

variable (ignored : Disk → Path → Bool) (head : GitTree) (wt : Worktree)

/-- An embedded repository that git refuses to stage. -/
def Refused (p : Path) : Prop :=
  wt.disk.occupants.lookup p = some (.repository none) ∧
    ((wt.index.lookup p).isNone && ignored wt.disk p) = false

instance (p : Path) : Decidable (wt.Refused ignored p) := inferInstanceAs (Decidable (_ ∧ _))

/-- The embedded repositories that git refuses to stage. -/
def refusedPaths : List Path :=
  (inOrderOf Path.slashed Path.slashed_injective wt.disk.occupants.keys).filter (wt.Refused ignored)

/-- The index after `git add -A`: the state of the worktree outside the excluded paths. -/
def stagedIndex (excluded : List Path) : GitTree :=
  FiniteMap.ofFun (wt.index.keys ∪ wt.disk.occupants.keys) fun p =>
    if CoveredBy excluded p then wt.index.lookup p else wt.content ignored p

/-- Some path of the index or of the commit differs from one to the other, or from the index to
the disk. -/
def isDirty : Bool :=
  (inOrderOf Path.slashed Path.slashed_injective (head.keys ∪ wt.index.keys)).any fun p =>
    (stagedStatus head wt.index p).isSome ||
      ((wt.index.lookup p).isSome && (unstagedStatus ignored wt.index wt.disk p).isSome)

variable {ignored head wt} {excluded : List Path} {p q : Path}

theorem lookup_stagedIndex : (wt.stagedIndex ignored excluded).lookup p =
    if CoveredBy excluded p then wt.index.lookup p else wt.content ignored p := by
  rw [stagedIndex, FiniteMap.lookup_ofFun]
  split_ifs with hkeys hcovered hcovered
  · rfl
  · rfl
  · rw [Finset.mem_union, not_or, Finmap.mem_keys, ← Finmap.lookup_eq_none] at hkeys
    exact hkeys.1.symm
  · rw [Finset.mem_union, not_or, Finmap.mem_keys, Finmap.mem_keys, ← Finmap.lookup_eq_none,
      ← Finmap.lookup_eq_none] at hkeys
    simp [content, Disk.entryAt, hkeys.2]

theorem mem_refusedPaths : p ∈ wt.refusedPaths ignored ↔ wt.Refused ignored p := by
  rw [refusedPaths, List.mem_filter, mem_inOrderOf, Finmap.mem_keys, decide_eq_true_iff]
  exact and_iff_right_of_imp fun h => FiniteMap.mem_of_lookup h.1

/-- What git has reported as refused is below the refused paths, and they are below it if git then
staged the rest. -/
theorem coveredBy_iff (hreported : ∀ p ∈ excluded, wt.Refused ignored p)
    (hstaged : ∀ p, wt.Refused ignored p → CoveredBy excluded p) :
    CoveredBy excluded p ↔ CoveredBy (wt.refusedPaths ignored) p := by
  constructor
  · rintro ⟨e, he, hp⟩
    exact ⟨e, mem_refusedPaths.mpr (hreported e he), hp⟩
  · rintro ⟨e, he, hp⟩
    obtain ⟨e', he', hee'⟩ := hstaged e (mem_refusedPaths.mp he)
    refine ⟨e', he', ?_⟩
    rcases hp with rfl | hp
    · exact hee'
    · rcases hee' with rfl | hee'
      · exact .inr hp
      · exact .inr (hee'.trans hp)

theorem stagedIndex_eq (hreported : ∀ p ∈ excluded, wt.Refused ignored p)
    (hstaged : ∀ p, wt.Refused ignored p → CoveredBy excluded p) :
    wt.stagedIndex ignored excluded = wt.stagedIndex ignored (wt.refusedPaths ignored) := by
  refine Finmap.ext_lookup fun p => ?_
  rw [lookup_stagedIndex, lookup_stagedIndex]
  exact if_congr (coveredBy_iff hreported hstaged) rfl rfl

theorem mode_of_content {e : MaterializedEntry} (h : wt.content ignored p = some e) :
    e.mode ≠ .tree := by
  unfold content at h
  split_ifs at h
  obtain ⟨occupant, -, hentry⟩ := Option.bind_eq_some_iff.mp h
  cases occupant
  case repository head =>
    obtain ⟨oid, -, rfl⟩ := Option.map_eq_some_iff.mp hentry
    exact EntryMode.noConfusion
  all_goals
    cases hentry
    try exact EntryMode.noConfusion

theorem occupied_of_content (h : wt.content ignored p ≠ none) :
    wt.disk.occupants.lookup p ≠ none := by
  intro hnone
  simp [content, Disk.entryAt, hnone] at h

/-- If what is excluded are places on disk, the staged index has no entry below another one. -/
theorem stagedIndex_prefixFree (hindex : TreePrefixFree wt.index)
    (hexcluded : ∀ e ∈ excluded, wt.disk.occupants.lookup e ≠ none) :
    TreePrefixFree (wt.stagedIndex ignored excluded) := by
  intro p hp q hq habove
  rw [Set.mem_ofPred_eq, lookup_stagedIndex] at hp hq
  split_ifs at hp hq with hpc hqc hqc
  · exact hindex p hp q hq habove
  · -- What lies below an excluded path is excluded.
    obtain ⟨e, he, rfl | hep⟩ := hpc
    · exact hqc ⟨p, he, .inr habove⟩
    · exact hqc ⟨e, he, .inr (hep.trans habove)⟩
  · obtain ⟨e, he, hqe⟩ := hqc
    have hpocc := occupied_of_content hp
    have heocc := hexcluded e he
    rcases hqe with rfl | heq
    · exact wt.disk.prefixFree p hpocc q heocc habove
    · rcases Path.Above.trichotomy habove heq with h | rfl | h
      · exact wt.disk.prefixFree p hpocc e heocc h
      · exact hpc ⟨p, he, .inl rfl⟩
      · exact wt.disk.prefixFree e heocc p hpocc h
  · exact wt.disk.prefixFree p (occupied_of_content hp) q (occupied_of_content hq) habove

end Worktree

/-- What an index entry adds to the tree; one that stands for a directory adds nothing. -/
def indexEdit (p : Path) (e : MaterializedEntry) : Option StateEdit :=
  match e.mode with
  | .blob | .blobExecutable | .link | .commit => some (.upsert p e)
  | .tree => none

theorem indexEdit_eq_some {p : Path} {e : MaterializedEntry} {edit : StateEdit} :
    indexEdit p e = some edit ↔ edit = .upsert p e ∧ e.mode ≠ .tree := by
  unfold indexEdit
  cases hmode : e.mode <;> simp [eq_comm]

/-- The tree of an index: its entries, put into the empty tree one after the other. -/
def writeIndexTree (index : GitTree) : GitTree :=
  (index.sortedEntries.filterMap fun (p, e) => indexEdit p e).foldl StateEdit.apply ∅

/-- The tree of an index has its entries, but for those that stand for directories. -/
theorem lookup_writeIndexTree {index : GitTree} (hindex : TreePrefixFree index) (p : Path) :
    (writeIndexTree index).lookup p = (index.lookup p).filter fun e => e.mode ≠ .tree := by
  have hmem (edit : StateEdit) :
      edit ∈ index.sortedEntries.filterMap (fun (p, e) => indexEdit p e) ↔
        ∃ p e, edit = .upsert p e ∧ index.lookup p = some e ∧ e.mode ≠ .tree := by
    rw [List.mem_filterMap]
    constructor
    · rintro ⟨⟨p, e⟩, hpe, hedit⟩
      obtain ⟨rfl, hmode⟩ := indexEdit_eq_some.mp hedit
      exact ⟨p, e, rfl, FiniteMap.mem_sortedEntries.mp hpe, hmode⟩
    · rintro ⟨p, e, rfl, hpe, hmode⟩
      exact ⟨(p, e), FiniteMap.mem_sortedEntries.mpr hpe, indexEdit_eq_some.mpr ⟨rfl, hmode⟩⟩
  refine lookup_foldl_apply (T := fun p => (index.lookup p).filter fun e => e.mode ≠ .tree) _ _ ?_
    ?_ ?_ ?_ p
  · intro edit hedit
    obtain ⟨p, e, rfl, hpe, hmode⟩ := (hmem edit).mp hedit
    simp [StateEdit.path, StateEdit.result, hpe, hmode]
  · intro p e q hedit hcomp
    obtain ⟨p', e', heq, hpe, -⟩ := (hmem _).mp hedit
    obtain ⟨rfl, rfl⟩ := StateEdit.upsert.inj heq
    have hq : index.lookup q = none := by
      by_contra hq
      exact hindex.not_comparable hq (by simp [hpe]) hcomp
    rw [hq, Option.filter_none]
  · intro p q l₁ l₂ hl
    obtain ⟨_, _, heq, -⟩ := (hmem (.remove p)).mp (hl ▸ by simp)
    cases heq
  · intro p
    rcases hp : (index.lookup p).filter (fun e => e.mode ≠ .tree) with _ | e
    · exact .inl (by rw [Finmap.lookup_empty, ← hp])
    · rw [Option.filter_eq_some_iff] at hp
      exact .inr ⟨.upsert p e, (hmem _).mpr ⟨p, e, rfl, hp.1, by simpa using hp.2⟩, rfl⟩

theorem writeIndexTree_prefixFree (index : GitTree) : TreePrefixFree (writeIndexTree index) := by
  refine foldl_apply_prefixFree _ ?_
  exact treePrefixFree_iff.mpr fun p hp => absurd hp (by simp)

end Maw
