import Mathlib.Data.List.Permutation
import Maw.Merge.StaleBase

/-!
# A file that a stale workspace and an epoch both add

A path that is absent at the creation of a stale workspace and present at the current epoch has
no common ancestor. The build takes the current content as its base all the same, or a content
from another stale epoch, so the bytes of the workspace may be merged over those of the epoch.

## Main definitions

* `StaleAdd` — a stale workspace and the current epoch have different bytes at a new path.
* `StaleAddsReported` — every such path is a conflict.
* `StaleAddsClash` — the condition under which it is.

## Main results

* `resolve_staleAdds_iff` — when every such path is a conflict.
-/

open ExceptRun MergeFold PointwiseFold

namespace Maw

section StaleAdd

variable {ε : Type} {history : History} {routines : SliceRoutines} {currentEpoch : EpochId}
  {patchSets : List PatchSet} {input : ResolveInput} {ps : PatchSet} {change : FileChange}
  {text current : Bytes} {diff3 : Bytes → Bytes → Bytes → Except ε (Diff3Result Bytes)}

/-- A path without an entry at an epoch. -/
def AbsentAt (history : History) (epoch : EpochId) (p : Path) : Prop :=
  ((history.treeOf epoch).bind fun tree => tree.lookup p) = none

/-- A stale workspace writes a path that was absent at its creation, and the current epoch has
other bytes there. -/
structure StaleAdd (history : History) (currentEpoch : EpochId) (patchSets : List PatchSet)
    (ps : PatchSet) (change : FileChange) (text current : Bytes) : Prop where
  mem : ps ∈ patchSets
  stale : IsStale history currentEpoch ps
  change_mem : change ∈ ps.changes
  live : change.kind ≠ .deleted
  content : change.content = some text
  absent : AbsentAt history (creationEpoch history currentEpoch ps) change.path
  present : contentAt history currentEpoch change.path = some current
  ne : text ≠ current

/-- The contents that a path is merged from. -/
def textsAt (history : History) (currentEpoch : EpochId) (patchSets : List PatchSet) (p : Path) :
    List (ChangeKind × Option Bytes) :=
  pathChanges (byWorkspace (entriesAt patchSets p ++ [epochEntry history currentEpoch p]))

/-- Every path that a stale workspace and the current epoch both add is the path of a record or
listed in one if it is in a clash, and a conflict of contents if it is resolved. -/
def StaleAddsReported (history : History) (currentEpoch : EpochId) (patchSets : List PatchSet)
    (diff3 : Bytes → Bytes → Bytes → Except ε (Diff3Result Bytes)) (input : ResolveInput) : Prop :=
  ∀ ps change text current, StaleAdd history currentEpoch patchSets ps change text current →
    (change.path ∈ input.partition.dfClashPaths →
      ∃ record ∈ emitDfClashConflicts input.partition.dfClashes,
        record.path = change.path ∨ record.lists change.path = true) ∧
    (change.path ∉ input.partition.dfClashPaths → ∀ entries outcome,
      (change.path, entries) ∈ input.partition.shared →
      resolveEntries (pathChanges entries) (input.baseContents.lookup change.path) diff3 =
        .ok outcome → ∃ reason, outcome = .conflict reason)

/-- At every such path in a clash it is the file or the first path below one. At every other one
some change is a deletion or lacks its content, or the contents do not merge against the content
of the path at the stale epoch with the least hash, or against the current one where there is
none. -/
def StaleAddsClash (history : History) (routines : SliceRoutines) (currentEpoch : EpochId)
    (patchSets injected : List PatchSet)
    (diff3 : Bytes → Bytes → Bytes → Except ε (Diff3Result Bytes)) : Prop :=
  ∀ ps change text current, StaleAdd history currentEpoch patchSets ps change text current →
    (∀ f, FileClash routines injected f change.path →
      (∃ c, FileClash routines injected change.path c) ∨
        ∃ g, FirstClash routines injected g change.path) ∧
    ((∀ c, ¬ FileClash routines injected change.path c ∧ ¬ FileClash routines injected c change.path) →
      ∀ oldestBase, (staleBaseEpochs history currentEpoch patchSets).head? = some oldestBase →
        ¬ AllWritten (textsAt history currentEpoch patchSets change.path) ∨
          ∀ out, ¬ MergesCleanly diff3 ((contentAt history oldestBase change.path).getD current)
            ((textsAt history currentEpoch patchSets change.path).filterMap (·.2)) out)

theorem exists_epochDeltaPaths {result : EpochDeltaResult}
    (hrun : injectEpochDelta history currentEpoch patchSets = .ok result) {base : EpochId}
    (hbase : base ∈ staleBaseEpochs history currentEpoch patchSets) :
    ∃ paths, epochDeltaPaths history base currentEpoch = .ok paths := by
  rw [injectEpochDelta] at hrun
  cases hstale : staleBaseEpochs history currentEpoch patchSets with
  | nil =>
    rw [hstale] at hbase
    exact absurd hbase List.not_mem_nil
  | cons oldest rest =>
    rw [hstale] at hrun
    obtain ⟨deltas, hdeltas, -⟩ := bind_eq_ok.mp hrun
    obtain ⟨paths, -, hpaths⟩ := exists_mem_of_mapM hdeltas (hstale ▸ hbase)
    exact ⟨paths, hpaths⟩

/-- A path that one of two epochs has and the other one has not is in their delta. -/
theorem mem_epochDeltaPaths {old new : EpochId} {paths : Finset Path} {p : Path} {c : Bytes}
    (h : epochDeltaPaths history old new = .ok paths) (habsent : AbsentAt history old p)
    (hpresent : contentAt history new p = some c) : p ∈ paths := by
  rw [epochDeltaPaths] at h
  cases hold : history.treeOf old with
  | none =>
    rw [hold] at h
    cases h
  | some oldTree =>
    cases hnew : history.treeOf new with
    | none =>
      rw [hold, hnew] at h
      cases h
    | some newTree =>
      rw [hold, hnew] at h
      obtain rfl := Except.ok.inj h
      rw [AbsentAt, hold, Option.bind_some] at habsent
      have hlookup : newTree.lookup p ≠ none := by
        intro hnone
        rw [contentAt, readFileAtEpoch, hnew, Option.bind_some, hnone] at hpresent
        cases hpresent
      have hkey : p ∈ newTree.keys :=
        Finmap.mem_keys.mpr (not_not.mp (mt Finmap.lookup_eq_none.mpr hlookup))
      rw [Finset.mem_filter, Finset.mem_union]
      exact ⟨.inr hkey, habsent ▸ hlookup.symm⟩

/-- A stale add meets the epoch delta. -/
theorem StaleAdd.staleChange
    (h : StaleAdd history currentEpoch patchSets ps change text current)
    (hrun : prepareResolve history routines currentEpoch patchSets = .ok input) :
    StaleChange history currentEpoch patchSets ps change := by
  obtain ⟨result, hresult, -⟩ := bind_eq_ok.mp hrun
  have hbase := mem_staleBaseEpochs.mpr ⟨ps, h.mem, h.stale, rfl⟩
  obtain ⟨paths, hpaths⟩ := exists_epochDeltaPaths hresult hbase
  exact ⟨h.mem, h.stale, h.change_mem, _, hbase, paths, hpaths,
    mem_epochDeltaPaths hpaths h.absent h.present⟩

/-- The two sides of a stale add are among the contents of its path. -/
theorem StaleAdd.mem_textsAt
    (h : StaleAdd history currentEpoch patchSets ps change text current)
    (hstale : StaleChange history currentEpoch patchSets ps change) :
    (change.kind, some text) ∈ textsAt history currentEpoch patchSets change.path ∧
      (.modified, some current) ∈ textsAt history currentEpoch patchSets change.path := by
  have hmem (e : PathEntry) (he : e ∈ entriesAt patchSets change.path ++
      [epochEntry history currentEpoch change.path]) :
      (e.kind, e.content) ∈ textsAt history currentEpoch patchSets change.path :=
    List.mem_map_of_mem (mem_byWorkspace.mpr he)
  have htheirs := hmem _ (List.mem_append_left _ hstale.mem_entriesAt)
  have hours := hmem _ (List.mem_append_right _ List.mem_cons_self)
  rw [epochEntry, h.present] at hours
  exact ⟨h.content ▸ htheirs, hours⟩

/-- The base of a stale add. -/
theorem StaleAdd.lookup_base
    (h : StaleAdd history currentEpoch patchSets ps change text current)
    (hrun : prepareResolve history routines currentEpoch patchSets = .ok input)
    {oldestBase : EpochId}
    (holdest : (staleBaseEpochs history currentEpoch patchSets).head? = some oldestBase) :
    input.baseContents.lookup change.path =
      some ((contentAt history oldestBase change.path).getD current) := by
  rw [(h.staleChange hrun).lookup_base hrun holdest, h.present]
  cases contentAt history oldestBase change.path <;> rfl

/-- Contents of which two differ resolve to a content exactly when they merge. -/
theorem exists_upsert_iff {changes : List (ChangeKind × Option Bytes)} {base : Bytes}
    {k k' : ChangeKind} {c d : Bytes} (hc : (k, some c) ∈ changes) (hd : (k', some d) ∈ changes)
    (hne : c ≠ d) : (∃ out, resolveEntries changes (some base) diff3 = .ok (.upsert out)) ↔
      AllWritten changes ∧ ∃ out, MergesCleanly diff3 base (changes.filterMap (·.2)) out := by
  have hrun (hwritten : AllWritten changes) {first : Bytes} {rest : List Bytes}
      (hcontents : changes.filterMap (·.2) = first :: rest) :
      resolveEntries changes (some base) diff3 = foldVariants diff3 base first rest := by
    rw [resolveEntries_of_written hwritten hcontents, if_neg]
    intro heq
    have hall (v : Bytes) (hv : v ∈ first :: rest) : v = first := by
      rcases List.mem_cons.mp hv with rfl | hv
      · rfl
      · exact allContentEqual_iff.mp heq v hv
    have hc' : c ∈ changes.filterMap (·.2) := List.mem_filterMap.mpr ⟨_, hc, rfl⟩
    have hd' : d ∈ changes.filterMap (·.2) := List.mem_filterMap.mpr ⟨_, hd, rfl⟩
    exact hne ((hall c (hcontents ▸ hc')).trans (hall d (hcontents ▸ hd')).symm)
  constructor
  · rintro ⟨out, hout⟩
    have hwritten := allWritten_of_upsert hout
    obtain ⟨⟨first, rest, hcontents⟩, -⟩ := hwritten.contents
    rw [hrun hwritten hcontents] at hout
    exact ⟨hwritten, out, first, rest, hcontents, foldVariants_upsert_iff.mp hout⟩
  · rintro ⟨hwritten, out, first, rest, hcontents, hmerge⟩
    exact ⟨out, (hrun hwritten hcontents).trans (foldVariants_upsert_iff.mpr hmerge)⟩

/-- A path with a change that is no deletion is not resolved as one. -/
theorem conflict_of_not_upsert {changes : List (ChangeKind × Option Bytes)} {base : Option Bytes}
    {k : ChangeKind} {c : Option Bytes} (hc : (k, c) ∈ changes) (hk : k ≠ .deleted)
    {outcome : MergeOutcome Bytes} (hout : resolveEntries changes base diff3 = .ok outcome)
    (hne : ∀ out, outcome ≠ .upsert out) : ∃ reason, outcome = .conflict reason := by
  cases outcome with
  | upsert out => exact absurd rfl (hne out)
  | conflict reason => exact ⟨reason, rfl⟩
  | delete => exact absurd (all_deleted_of_delete hout _ hc) hk

theorem partition_of_prepareResolve {injected : EpochDeltaResult}
    (hinject : injectEpochDelta history currentEpoch patchSets = .ok injected)
    (hrun : prepareResolve history routines currentEpoch patchSets = .ok input) :
    input.partition = partitionByPath routines injected.patchSets := by
  obtain ⟨injected', hinject', hrun⟩ := bind_eq_ok.mp hrun
  obtain rfl := Except.ok.inj (hinject.symm.trans hinject')
  obtain ⟨baseContents, -, hrun⟩ := bind_eq_ok.mp hrun
  rw [pure_eq_ok] at hrun
  rw [← hrun]

/-- The records of the clashes name a path as the file of a clash or as the first path below. -/
theorem exists_record_names_iff {injected : List PatchSet} {p : Path} :
    (∃ record ∈ emitDfClashConflicts (partitionByPath routines injected).dfClashes,
        record.path = p ∨ record.lists p = true) ↔
      (∃ c, FileClash routines injected p c) ∨ ∃ g, FirstClash routines injected g p := by
  constructor
  · rintro ⟨record, hmem, hpath | hlists⟩
    · exact .inl ((ResolvedFrom.mem_emit_iff _ _ _).mp (List.mem_map.mpr ⟨record, hmem, hpath⟩))
    · obtain ⟨clash, hitem, rfl⟩ := mem_emitDfClashConflicts.mp hmem
      have hp : clash.dirChildExample = p := by
        simpa [ConflictRecord.lists, dfClashRecord] using hlists
      exact .inr ⟨clash.filePath, hp ▸ firstClash_of_itemAt hitem⟩
  · rintro (hfile | ⟨g, hfirst⟩)
    · obtain ⟨record, hmem, hpath⟩ := List.mem_map.mp ((ResolvedFrom.mem_emit_iff routines injected p).mpr hfile)
      exact ⟨record, hmem, .inl hpath⟩
    · obtain ⟨clash, hitem, rfl⟩ := firstClash_iff.mp hfirst
      obtain rfl := key_of_itemAt hitem
      refine ⟨dfClashRecord clash, mem_emitDfClashConflicts.mpr ⟨clash, hitem, rfl⟩, .inr ?_⟩
      simp [ConflictRecord.lists, dfClashRecord]

/-- Every path that a stale workspace and the current epoch both add is a conflict exactly when
its contents clash. -/
theorem resolve_staleAdds_iff {injected : EpochDeltaResult}
    (hinject : injectEpochDelta history currentEpoch patchSets = .ok injected)
    (hrun : prepareResolve history routines currentEpoch patchSets = .ok input) :
    StaleAddsReported history currentEpoch patchSets diff3 input ↔
      StaleAddsClash history routines currentEpoch patchSets injected.patchSets diff3 := by
  have hpartition := partition_of_prepareResolve hinject hrun
  have hnot (p : Path) : p ∉ input.partition.dfClashPaths ↔
      ∀ c, ¬ FileClash routines injected.patchSets p c ∧
        ¬ FileClash routines injected.patchSets c p := by
    rw [hpartition, mem_dfClashPaths, not_or, not_exists, not_exists, forall_and]
  have hrecords (p : Path) : (p ∈ input.partition.dfClashPaths →
        ∃ record ∈ emitDfClashConflicts input.partition.dfClashes,
          record.path = p ∨ record.lists p = true) ↔
      ∀ f, FileClash routines injected.patchSets f p →
        (∃ c, FileClash routines injected.patchSets p c) ∨
          ∃ g, FirstClash routines injected.patchSets g p := by
    rw [hpartition, mem_dfClashPaths, exists_record_names_iff]
    constructor
    · intro h f hf
      exact h (.inr ⟨f, hf⟩)
    · rintro h (hfile | ⟨f, hf⟩)
      · exact .inl hfile
      · exact h f hf
  constructor
  · intro h ps change text current hadd
    obtain ⟨hclashes, h⟩ := h ps change text current hadd
    refine ⟨(hrecords _).mp hclashes, fun hclash oldestBase holdest => ?_⟩
    have hstale := hadd.staleChange hrun
    obtain ⟨htext, hcurrent⟩ := hadd.mem_textsAt hstale
    have hnone : ¬ ∃ out, resolveEntries (textsAt history currentEpoch patchSets change.path)
        (some ((contentAt history oldestBase change.path).getD current)) diff3 =
          .ok (.upsert out) := by
      rintro ⟨out, hout⟩
      obtain ⟨reason, hreason⟩ := h ((hnot _).mpr hclash) _ (.upsert out)
        ((hstale.mem_shared_iff hrun).mpr rfl) (hadd.lookup_base hrun holdest ▸ hout)
      cases hreason
    rw [exists_upsert_iff htext hcurrent hadd.ne, not_and_or, not_exists] at hnone
    exact hnone
  · intro h ps change text current hadd
    obtain ⟨hclashes, h⟩ := h ps change text current hadd
    refine ⟨(hrecords _).mpr hclashes, fun hclash entries outcome hentries hout => ?_⟩
    have hstale := hadd.staleChange hrun
    obtain ⟨htext, hcurrent⟩ := hadd.mem_textsAt hstale
    obtain ⟨oldestBase, holdest⟩ := hstale.exists_oldest
    obtain rfl := (hstale.mem_shared_iff hrun).mp hentries
    rw [hadd.lookup_base hrun holdest] at hout
    refine conflict_of_not_upsert htext hadd.live hout ?_
    rintro out rfl
    have hex := (exists_upsert_iff htext hcurrent hadd.ne).mp ⟨out, hout⟩
    rcases h ((hnot _).mp hclash) oldestBase holdest with hwritten | hmerge
    · exact hwritten hex.1
    · obtain ⟨out', hout'⟩ := hex.2
      exact hmerge out' hout'

end StaleAdd

section Samples

/-- The second epoch adds the file, which the first one has not. -/
private def addedLater : History :=
  { sampleHistory dirPath fun _ => none with
    treeOf := fun epoch =>
      some (if epoch.oid = sampleBlob 12 then (∅ : GitTree).insert dirPath ⟨.blob, sampleBlob 1⟩
        else ∅) }

/-- Two workspaces of the first epoch add the file with other first lines. -/
private def twoAdds : List PatchSet :=
  [writesAt "alice" 11 .added dirPath (lines 2 5), writesAt "bob" 11 .added dirPath (lines 3 5)]

theorem resolve_staleAdds_twoAdds :
    ∃ input, prepareResolve addedLater sampleRoutines ⟨sampleBlob 12⟩ twoAdds = .ok input ∧
      StaleAddsReported addedLater ⟨sampleBlob 12⟩ twoAdds sampleDiff3 input := by
  obtain ⟨injected, hinject⟩ := ExceptRun.exists_ok
    (x := injectEpochDelta addedLater ⟨sampleBlob 12⟩ twoAdds) (by decide +kernel)
  obtain ⟨input, hrun⟩ := ExceptRun.exists_ok
    (x := prepareResolve addedLater sampleRoutines ⟨sampleBlob 12⟩ twoAdds) (by decide +kernel)
  refine ⟨input, hrun, (resolve_staleAdds_iff hinject hrun).mpr ?_⟩
  have hclashes : (injectEpochDelta addedLater ⟨sampleBlob 12⟩ twoAdds).toOption.map
      (fun injected => (partitionByPath sampleRoutines injected.patchSets).dfClashes) =
        some [] := by
    decide +kernel
  rw [hinject] at hclashes
  have hnone (f c : Path) : ¬ FileClash sampleRoutines injected.patchSets f c := by
    intro hclash
    obtain ⟨clash, hmem, -⟩ := exists_mem_dfClashes_iff.mpr hclash
    have hnil : (partitionByPath sampleRoutines injected.patchSets).dfClashes = [] :=
      Option.some.inj hclashes
    rw [hnil] at hmem
    exact List.not_mem_nil hmem
  rintro ps change text current hadd
  refine ⟨fun f hf => absurd hf (hnone f _), fun _ oldestBase holdest => .inr ?_⟩
  have hbase : (staleBaseEpochs addedLater ⟨sampleBlob 12⟩ twoAdds).head? =
      some ⟨sampleBlob 11⟩ := by
    decide +kernel
  obtain rfl := Option.some.inj (hbase.symm.trans holdest)
  have hpath : change.path = dirPath := by
    rcases List.mem_pair.mp hadd.mem with rfl | rfl
    · exact congrArg FileChange.path (List.mem_singleton.mp hadd.change_mem)
    · exact congrArg FileChange.path (List.mem_singleton.mp hadd.change_mem)
  have hcurrent : current = lines 1 5 := by
    refine Option.some.inj (hadd.present.symm.trans ?_)
    rw [hpath]
    decide +kernel
  have hcontent : contentAt addedLater ⟨sampleBlob 11⟩ dirPath = none := by
    decide +kernel
  have htexts : (textsAt addedLater ⟨sampleBlob 12⟩ twoAdds dirPath).filterMap (·.2) =
      [lines 2 5, lines 3 5, lines 1 5] := by
    decide +kernel
  rw [hpath, hcurrent, hcontent, htexts, Option.getD_none]
  rintro out ⟨first, rest, hcons, hmerge⟩
  cases hcons
  exact absurd (foldVariants_upsert_iff.mpr hmerge) (by
    rw [show foldVariants sampleDiff3 (lines 1 5) (lines 2 5) [lines 3 5, lines 1 5] =
      .ok (.conflict .diff3Conflict) by decide +kernel]
    rintro ⟨⟩)

/-- One workspace of the first epoch adds the file with another first line. -/
private def oneAdd : List PatchSet := [writesAt "alice" 11 .added dirPath (lines 2 5)]

/-- The file of the second epoch is overwritten by the one of the workspace. -/
theorem resolve_overwrites_epochFile :
    ∃ input, prepareResolve addedLater sampleRoutines ⟨sampleBlob 12⟩ oneAdd = .ok input ∧
      contentAt addedLater ⟨sampleBlob 11⟩ dirPath = none ∧
      contentAt addedLater ⟨sampleBlob 12⟩ dirPath = some (lines 1 5) ∧
      (∃ entries, (dirPath, entries) ∈ input.partition.shared ∧
        resolveEntries (pathChanges entries) (input.baseContents.lookup dirPath) sampleDiff3 =
          .ok (.upsert (lines 2 5))) ∧
      ¬ StaleAddsReported addedLater ⟨sampleBlob 12⟩ oneAdd sampleDiff3 input := by
  obtain ⟨input, hrun⟩ := ExceptRun.exists_ok
    (x := prepareResolve addedLater sampleRoutines ⟨sampleBlob 12⟩ oneAdd) (by decide +kernel)
  have hadd : StaleAdd addedLater ⟨sampleBlob 12⟩ oneAdd
      (writesAt "alice" 11 .added dirPath (lines 2 5))
      ⟨dirPath, .added, some (lines 2 5), none, none, some .blob⟩ (lines 2 5) (lines 1 5) :=
    { mem := by simp [oneAdd]
      stale := by rw [IsStale]; decide +kernel
      change_mem := by simp [writesAt]
      live := by decide
      content := rfl
      absent := by rw [AbsentAt]; decide +kernel
      present := by decide +kernel
      ne := by decide }
  have hentries := ((hadd.staleChange hrun).mem_shared_iff hrun).mpr rfl
  have hout : resolveEntries (textsAt addedLater ⟨sampleBlob 12⟩ oneAdd dirPath)
      (some (lines 1 5)) sampleDiff3 = .ok (.upsert (lines 2 5)) := by
    decide +kernel
  have hbase : input.baseContents.lookup dirPath = some (lines 1 5) :=
    hadd.lookup_base hrun (show _ = some ⟨sampleBlob 11⟩ by decide +kernel)
  rw [← hbase] at hout
  have hfree : dirPath ∉ input.partition.dfClashPaths := by
    have hpaths : (prepareResolve addedLater sampleRoutines ⟨sampleBlob 12⟩ oneAdd).toOption.map
        (fun input => input.partition.dfClashPaths) = some [] := by
      decide +kernel
    rw [hrun] at hpaths
    have hnil : input.partition.dfClashPaths = [] := Option.some.inj hpaths
    rw [hnil]
    exact List.not_mem_nil
  refine ⟨input, hrun, by decide +kernel, by decide +kernel, ⟨_, hentries, hout⟩, fun h => ?_⟩
  obtain ⟨reason, hreason⟩ := (h _ _ _ _ hadd).2 hfree _ _ hentries hout
  cases hreason

end Samples

end Maw
