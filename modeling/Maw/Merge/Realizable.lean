import Maw.Merge.Accounting

/-!
# Files and directories in the result of a merge

The upserts of a merge are to make a tree, so none of their paths may lie above another one. A
clash of a file with a directory is found from a path with one change. It is missed when several
workspaces change the file and no path below it has one change and the file as its nearest file.

## Main definitions

* `ReportsClash` — the record of a clash at a path.
* `ClashesSeen` — the condition under which no clash is missed.

## Main results

* `resolve_prefixFree_iff` — when the upserts make a tree and all clashes are reported.
-/

namespace Maw

section Realizable

variable {routines : SliceRoutines} {patchSets : List PatchSet} {p q : Path} {r : ResolveResult}
  {outcomes : List SharedOutcome}

/-- The result reports a clash of the file `p` with a directory. -/
def ReportsClash (r : ResolveResult) (p : Path) : Prop :=
  ∃ record ∈ r.conflicts, record.path = p ∧ ∃ s d, record.reason = .fileDirectory s d

/-- The paths that the result upserts. -/
def upsertPaths (r : ResolveResult) : Set Path := {p | ∃ c, .upsert p c ∈ r.resolved}

/-- Every file above another one has only one change, or is found as the nearest file above a
path with only one change. -/
def ClashesSeen (routines : SliceRoutines) (patchSets : List PatchSet) : Prop :=
  ∀ f q, IsLive patchSets f → IsLive patchSets q → f.Above q →
    IsLone patchSets f ∨ ∃ c, IsLone patchSets c ∧ FoundAbove routines patchSets f c

namespace ResolvedFrom

theorem reportsClash_iff (h : ResolvedFrom routines patchSets outcomes r) :
    ReportsClash r p ↔ ∃ c, FileClash routines patchSets p c := by
  constructor
  · rintro ⟨record, hmem, rfl, s, d, hreason⟩
    rcases List.mem_append.mp (h.conflicts.mem_iff.mp hmem) with hmem | hmem
    · exact (mem_emit_iff _ _ _).mp (List.mem_map_of_mem hmem)
    · obtain ⟨o, ho, hrecord⟩ := List.mem_filterMap.mp hmem
      cases o with
      | resolved change => cases hrecord
      | conflict record' =>
        obtain rfl := Option.some.inj hrecord
        exact absurd hreason (h.ne_fileDirectory _ ho s d)
  · intro hclash
    obtain ⟨record, hmem, rfl⟩ := List.mem_map.mp ((mem_emit_iff routines _ p).mpr hclash)
    refine ⟨record, h.conflicts.mem_iff.mpr (List.mem_append_left _ hmem), rfl, ?_⟩
    obtain ⟨clash, -, rfl⟩ := mem_emitDfClashConflicts.mp hmem
    exact ⟨_, _, rfl⟩

/-- What is upserted is a file for some workspace, and in no clash. -/
theorem of_upsert (h : ResolvedFrom routines patchSets outcomes r) (hp : p ∈ upsertPaths r) :
    IsLive patchSets p ∧ ¬ ∃ c, FileClash routines patchSets p c := by
  obtain ⟨c, hmem⟩ := hp
  obtain ⟨o, ho, hchange⟩ := List.mem_filterMap.mp (h.resolved.mem_iff.mp hmem)
  cases o with
  | conflict record => cases hchange
  | resolved change =>
    obtain rfl := Option.some.inj hchange
    have hskip := ((h.mem_paths p).mp (List.mem_map_of_mem ho)).2
    exact ⟨h.live p c ho, fun hclash => hskip (mem_dfClashPaths.mpr (.inl hclash))⟩

end ResolvedFrom

/-- Every file above another one is the file of a clash exactly when no clash is missed. -/
theorem clashesSeen_iff : ClashesSeen routines patchSets ↔
    ∀ p q, IsLive patchSets p → IsLive patchSets q → p.Above q →
      ∃ c, FileClash routines patchSets p c := by
  constructor
  · intro hseen p q hp hq habove
    rcases hseen p q hp hq habove with hlone | ⟨c, hc, hfound⟩
    · obtain ⟨d, hd⟩ := exists_foundBelow routines hq habove
      exact ⟨d, .inl ⟨hlone, hd⟩⟩
    · exact ⟨c, .inr ⟨hc, hfound⟩⟩
  · intro hclash f q hf hq habove
    obtain ⟨c, ⟨hlone, -⟩ | ⟨hc, hfound⟩⟩ := hclash f q hf hq habove
    · exact .inl hlone
    · exact .inr ⟨c, hc, hfound⟩

/-- The upserts make a tree and every clash of a file with a directory is reported exactly when
no clash is missed. -/
theorem resolve_prefixFree_iff {tools : MergeTools} {attrs : Option AttrsMatcher}
    {baseContents : FiniteMap Path Bytes}
    (hrun : resolvePartitionWithAttrs tools attrs (partitionByPath routines patchSets)
      baseContents = .ok r) :
    (PrefixFree (upsertPaths r) ∧ ∀ p q, IsLive patchSets p → IsLive patchSets q → p.Above q →
        ReportsClash r p) ↔ ClashesSeen routines patchSets := by
  obtain ⟨outcomes, h⟩ := exists_resolvedFrom (fun _ _ _ _ => resolveSharedPath_spec) hrun
  simp only [clashesSeen_iff, h.reportsClash_iff]
  constructor
  · exact And.right
  · intro hclash
    refine ⟨fun p hp q hq habove => ?_, hclash⟩
    obtain ⟨hlive, hnone⟩ := h.of_upsert hp
    exact hnone (hclash p q hlive (h.of_upsert hq).1 habove)

end Realizable

section Samples

/-- One workspace has a file where another one has a directory. -/
private def fileAndDir : List PatchSet :=
  [adds "alice" [(dirPath, 1)], adds "bob" [(inDirPath (.lit "inner"), 2)]]

private def fileAndDirResult : ResolveResult :=
  ⟨[], [dfClashRecord ⟨dirPath, ⟨"alice"⟩, inDirPath (.lit "inner"), ⟨"bob"⟩⟩]⟩

theorem resolve_prefixFree_fileAndDir :
    resolvePartitionWithAttrs sampleTools none (partitionByPath sampleRoutines fileAndDir) ∅ =
        .ok fileAndDirResult ∧
      ((PrefixFree (upsertPaths fileAndDirResult) ∧ ∀ p q, IsLive fileAndDir p →
          IsLive fileAndDir q → p.Above q → ReportsClash fileAndDirResult p) ↔
        ClashesSeen sampleRoutines fileAndDir) := by
  have hrun : resolvePartitionWithAttrs sampleTools none
      (partitionByPath sampleRoutines fileAndDir) ∅ = .ok fileAndDirResult := by decide +kernel
  exact ⟨hrun, resolve_prefixFree_iff hrun⟩

/-- Two workspaces add a file, and two others add a file below it. -/
private def twice : List PatchSet :=
  [adds "alice" [(dirPath, 1)], adds "bob" [(dirPath, 1)], adds "carol" [(inDirPath (.lit "inner"), 2)],
    adds "dave" [(inDirPath (.lit "inner"), 2)]]

private def twiceResult : ResolveResult :=
  ⟨[.upsert dirPath [1], .upsert (inDirPath (.lit "inner")) [2]], []⟩

/-- The merge of four workspaces upserts a file and a file below it. -/
theorem resolve_upserts_fileAndDir :
    (twice.map (·.workspaceId)).Nodup ∧
      (∀ ps ∈ twice, ∀ c ∈ ps.changes, ∀ d ∈ ps.changes, ¬ c.path.Above d.path) ∧
      resolvePartitionWithAttrs sampleTools none (partitionByPath sampleRoutines twice) ∅ =
        .ok twiceResult ∧
      ¬ PrefixFree (upsertPaths twiceResult) := by
  refine ⟨by decide, by decide +kernel, by decide +kernel, fun hfree => ?_⟩
  exact hfree dirPath ⟨[1], by simp [twiceResult]⟩ (inDirPath (.lit "inner"))
    ⟨[2], by simp [twiceResult]⟩ (by decide)

end Samples

end Maw
