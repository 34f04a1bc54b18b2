import Maw.Merge.BuildPhase

/-!
# The base of a stale change

A change of a stale workspace is merged against one base for its path, the content at the stale
epoch with the least hash. This keeps the changes of the epochs when it is also the content at
the creation of the workspace, and can lose them otherwise.

## Main definitions

* `KeepsChanges` — three-way merges keep the changes of both sides.
* `BaseFromCreation`, `EpochKeptByMerge` — what the build owes a stale change.
* `StaleBasesAgree` — the condition under which it delivers.

## Main results

* `prepareResolve_base_iff` — when stale changes are merged against their creation.
-/

open MergeFold

namespace Maw

/-- The merge function keeps the changes of both sides, for a notion of having the changes that
a side makes to a base. -/
structure KeepsChanges {C ε : Type} (diff3 : C → C → C → Except ε (Diff3Result C))
    (Keeps : (base side out : C) → Prop) : Prop where
  refl : ∀ base, Std.Refl (Keeps base)
  trans : ∀ base, IsTrans C (Keeps base)
  clean : ∀ base ours theirs out, diff3 base ours theirs = .ok (.clean out) →
    Keeps base ours out ∧ Keeps base theirs out

/-- What the merge algebra sees of the changes of a path. -/
def pathChanges (entries : List PathEntry) : List (ChangeKind × Option Bytes) :=
  entries.map fun e => (e.kind, e.content)

section Stale

variable {ε : Type} {history : History} {routines : SliceRoutines} {currentEpoch : EpochId}
  {patchSets : List PatchSet} {input : ResolveInput} {ps : PatchSet} {change : FileChange}
  {diff3 : Bytes → Bytes → Bytes → Except ε (Diff3Result Bytes)}
  {Keeps : (base side out : Bytes) → Prop}

/-- The epoch that a patch set's workspace was created at. -/
def creationEpoch (history : History) (currentEpoch : EpochId) (ps : PatchSet) : EpochId :=
  workspaceMergeBase history ps.epoch currentEpoch

/-- The changes that meet the epoch delta: those of stale workspaces to paths in it. -/
def StaleChange (history : History) (currentEpoch : EpochId) (patchSets : List PatchSet)
    (ps : PatchSet) (change : FileChange) : Prop :=
  ps ∈ patchSets ∧ IsStale history currentEpoch ps ∧ change ∈ ps.changes ∧
    InDelta history currentEpoch patchSets change.path

/-- The base of each stale change is the content at the creation of its workspace. -/
def BaseFromCreation (history : History) (currentEpoch : EpochId) (patchSets : List PatchSet)
    (input : ResolveInput) : Prop :=
  ∀ ps change, StaleChange history currentEpoch patchSets ps change →
    input.baseContents.lookup change.path =
      contentAt history (creationEpoch history currentEpoch ps) change.path

/-- Where a stale change is merged without a conflict, the result has what the epochs changed
since its creation, and what the change itself does. -/
def EpochKeptByMerge (history : History) (currentEpoch : EpochId) (patchSets : List PatchSet)
    (diff3 : Bytes → Bytes → Bytes → Except ε (Diff3Result Bytes))
    (Keeps : (base side out : Bytes) → Prop) (input : ResolveInput) : Prop :=
  ∀ ps change, StaleChange history currentEpoch patchSets ps change →
    ∀ created text, contentAt history (creationEpoch history currentEpoch ps) change.path =
        some created → change.content = some text →
      ∀ entries out, (change.path, entries) ∈ input.partition.shared →
        resolveEntries (pathChanges entries) (input.baseContents.lookup change.path) diff3 =
          .ok (.upsert out) →
        ∃ current, contentAt history currentEpoch change.path = some current ∧
          Keeps created current out ∧ Keeps created text out

/-- Each stale change was made over the content at the stale epoch with the least hash, or over
the current content where there is none. -/
def StaleBasesAgree (history : History) (currentEpoch : EpochId) (patchSets : List PatchSet) :
    Prop :=
  ∀ ps change, StaleChange history currentEpoch patchSets ps change →
    ∀ oldestBase, (staleBaseEpochs history currentEpoch patchSets).head? = some oldestBase →
      contentAt history (creationEpoch history currentEpoch ps) change.path =
        (contentAt history oldestBase change.path).or (contentAt history currentEpoch change.path)

theorem StaleChange.touched (h : StaleChange history currentEpoch patchSets ps change) :
    Touched patchSets change.path :=
  touched_iff.mpr ⟨ps, h.1, change, h.2.2.1, rfl⟩

theorem StaleChange.exists_oldest (h : StaleChange history currentEpoch patchSets ps change) :
    ∃ oldestBase, (staleBaseEpochs history currentEpoch patchSets).head? = some oldestBase := by
  have hmem := mem_staleBaseEpochs.mpr ⟨ps, h.1, h.2.1, rfl⟩
  exact Option.isSome_iff_exists.mp (List.isSome_head?.mpr (List.ne_nil_of_mem hmem))

/-- The entry of a change is among those of its path. -/
theorem StaleChange.mem_entriesAt (h : StaleChange history currentEpoch patchSets ps change) :
    .withMode ps.workspaceId change ∈ entriesAt patchSets change.path :=
  List.mem_flatMap.mpr ⟨ps, h.1, List.mem_map_of_mem (by simpa using h.2.2.1)⟩

/-- The base of a stale change: the content at the stale epoch with the least hash, or else the
current one. -/
theorem StaleChange.lookup_base (h : StaleChange history currentEpoch patchSets ps change)
    (hrun : prepareResolve history routines currentEpoch patchSets = .ok input)
    {oldestBase : EpochId}
    (holdest : (staleBaseEpochs history currentEpoch patchSets).head? = some oldestBase) :
    input.baseContents.lookup change.path = (contentAt history oldestBase change.path).or
      (contentAt history currentEpoch change.path) :=
  (prepareResolve_spec hrun holdest h.2.2.2 h.touched).2

/-- The entries that a stale change is merged with. -/
theorem StaleChange.mem_shared_iff (h : StaleChange history currentEpoch patchSets ps change)
    (hrun : prepareResolve history routines currentEpoch patchSets = .ok input)
    {entries : List PathEntry} : (change.path, entries) ∈ input.partition.shared ↔
      entries = byWorkspace
        (entriesAt patchSets change.path ++ [epochEntry history currentEpoch change.path]) := by
  obtain ⟨oldestBase, holdest⟩ := h.exists_oldest
  exact (prepareResolve_spec hrun holdest h.2.2.2 h.touched).1 entries

theorem baseFromCreation_iff
    (hrun : prepareResolve history routines currentEpoch patchSets = .ok input) :
    BaseFromCreation history currentEpoch patchSets input ↔
      StaleBasesAgree history currentEpoch patchSets := by
  constructor
  · intro h ps change hstale oldestBase holdest
    rw [← h ps change hstale, hstale.lookup_base hrun holdest]
  · intro h ps change hstale
    obtain ⟨oldestBase, holdest⟩ := hstale.exists_oldest
    rw [h ps change hstale oldestBase holdest, hstale.lookup_base hrun holdest]

/-- A merge against the content at creation keeps what the epochs changed. -/
theorem epochKeptByMerge (hmerge : KeepsChanges diff3 Keeps)
    (hrun : prepareResolve history routines currentEpoch patchSets = .ok input)
    (hbase : BaseFromCreation history currentEpoch patchSets input) :
    EpochKeptByMerge history currentEpoch patchSets diff3 Keeps input := by
  intro ps change hstale created text hcreated htext entries out hentries hout
  have := hmerge.refl created
  have := hmerge.trans created
  rw [hbase ps change hstale, hcreated] at hout
  rw [hstale.mem_shared_iff hrun] at hentries
  have hupper := resolveEntries_upper (hmerge.clean created) hout
  have hwritten := allWritten_of_upsert hout
  have hmem (e : PathEntry) (he : e ∈ entriesAt patchSets change.path ++
      [epochEntry history currentEpoch change.path]) : (e.kind, e.content) ∈ pathChanges entries :=
    List.mem_map_of_mem (hentries ▸ mem_byWorkspace.mpr he)
  have hepoch := hmem _ (List.mem_append_right _ List.mem_cons_self)
  have htheirs := hmem _ (List.mem_append_left _ hstale.mem_entriesAt)
  cases hcurrent : contentAt history currentEpoch change.path with
  | none =>
    rw [epochEntry, hcurrent] at hepoch
    exact absurd rfl (hwritten.2 _ hepoch).1
  | some current =>
    rw [epochEntry, hcurrent] at hepoch
    exact ⟨current, rfl, hupper _ hepoch current rfl, hupper _ htheirs text htext⟩

/-- Stale changes are merged against the content at their creation, and keep what the epochs
changed since then, exactly when the stale bases agree. -/
theorem prepareResolve_base_iff (hmerge : KeepsChanges diff3 Keeps)
    (hrun : prepareResolve history routines currentEpoch patchSets = .ok input) :
    BaseFromCreation history currentEpoch patchSets input ∧
        EpochKeptByMerge history currentEpoch patchSets diff3 Keeps input ↔
      StaleBasesAgree history currentEpoch patchSets := by
  rw [← baseFromCreation_iff hrun, and_iff_left_iff_imp]
  exact epochKeptByMerge hmerge hrun

end Stale

section Samples

/-- A three-way merge of texts of one length, position by position. -/
def sampleDiff3 (base ours theirs : Bytes) : Except ResolveError (Diff3Result Bytes) :=
  match positional base ours theirs with
  | some out => .ok (.clean out)
  | none => .ok .conflict

theorem keepsChanges_sampleDiff3 : KeepsChanges sampleDiff3 PositionsKept where
  refl _ := inferInstance
  trans _ := inferInstance
  clean base ours theirs out h := by
    rw [sampleDiff3] at h
    split at h
    · cases h
      exact positional_keeps ‹_›
    · cases h

/-- Four lines of one character, of which the first and the last one vary. -/
def lines (first last : UInt8) : Bytes := [first, 10, 45, 10, 45, 10, last, 10]

/-- Each epoch has one file; the blob names its first line. -/
def sampleHistory (file : Path) (firstAt : GitOid → Option Nat) : History where
  repo := { sampleRepo with
    readBlob := fun blob => some (lines (if blob = sampleBlob 1 then 1 else 2) 5) }
  treeOf epoch := (firstAt epoch.oid).map fun n => (∅ : GitTree).insert file ⟨.blob, sampleBlob n⟩
  mergeBase epoch _ := some epoch

/-- The first line is 1 at the first and at the last epoch, and 2 in between. -/
private def backAndForth : GitOid → Option Nat := fun oid =>
  if oid = sampleBlob 12 then some 2 else some 1

private def history : History := sampleHistory dirPath backAndForth

/-- A workspace that writes a file at an epoch. -/
def writesAt (name : String) (epoch : Nat) (kind : ChangeKind) (file : Path) (content : Bytes) :
    PatchSet :=
  ⟨⟨name⟩, ⟨sampleBlob epoch⟩, [⟨file, kind, some content, none, none, some .blob⟩]⟩

/-- One workspace of the second epoch edits the last line. -/
private def oneStale : List PatchSet := [writesAt "bob" 12 .modified dirPath (lines 2 6)]

theorem prepareResolve_base_oneStale :
    ∃ input, prepareResolve history sampleRoutines ⟨sampleBlob 13⟩ oneStale = .ok input ∧
      BaseFromCreation history ⟨sampleBlob 13⟩ oneStale input ∧
      EpochKeptByMerge history ⟨sampleBlob 13⟩ oneStale sampleDiff3 PositionsKept input := by
  obtain ⟨input, hrun⟩ := ExceptRun.exists_ok
    (x := prepareResolve history sampleRoutines ⟨sampleBlob 13⟩ oneStale) (by decide +kernel)
  refine ⟨input, hrun, (prepareResolve_base_iff keepsChanges_sampleDiff3 hrun).mpr ?_⟩
  rintro ps change ⟨hps, -, hchange, -⟩ oldestBase holdest
  obtain rfl := List.mem_singleton.mp hps
  obtain rfl := List.mem_singleton.mp hchange
  have hbase : (staleBaseEpochs history ⟨sampleBlob 13⟩ oneStale).head? = some ⟨sampleBlob 12⟩ := by
    decide +kernel
  obtain rfl := Option.some.inj (hbase.symm.trans holdest)
  decide +kernel

/-- A workspace of the first epoch adds another file. -/
private def twoStale : List PatchSet :=
  [writesAt "alice" 11 .added ⟨[.lit "e"], by decide⟩ [1],
    writesAt "bob" 12 .modified dirPath (lines 2 6)]

/-- The stale workspace of the second epoch is merged against the first one, and the change of the
last epoch is lost. -/
theorem prepareResolve_loses_epochChange :
    ∃ input, prepareResolve history sampleRoutines ⟨sampleBlob 13⟩ twoStale = .ok input ∧
      contentAt history ⟨sampleBlob 12⟩ dirPath = some (lines 2 5) ∧
      contentAt history ⟨sampleBlob 13⟩ dirPath = some (lines 1 5) ∧
      input.baseContents.lookup dirPath = some (lines 1 5) ∧
      (∃ entries, (dirPath, entries) ∈ input.partition.shared ∧
        resolveEntries (pathChanges entries) (input.baseContents.lookup dirPath) sampleDiff3 =
          .ok (.upsert (lines 2 6))) ∧
      ¬ (BaseFromCreation history ⟨sampleBlob 13⟩ twoStale input ∧
        EpochKeptByMerge history ⟨sampleBlob 13⟩ twoStale sampleDiff3 PositionsKept input) := by
  obtain ⟨input, hrun⟩ := ExceptRun.exists_ok
    (x := prepareResolve history sampleRoutines ⟨sampleBlob 13⟩ twoStale) (by decide +kernel)
  have hbase : (prepareResolve history sampleRoutines ⟨sampleBlob 13⟩ twoStale).toOption.map
      (fun input => input.baseContents.lookup dirPath) = some (some (lines 1 5)) := by
    decide +kernel
  rw [hrun] at hbase
  have hlookup : input.baseContents.lookup dirPath = some (lines 1 5) := Option.some.inj hbase
  have hstale : StaleChange history ⟨sampleBlob 13⟩ twoStale
      (writesAt "bob" 12 .modified dirPath (lines 2 6))
      ⟨dirPath, .modified, some (lines 2 6), none, none, some .blob⟩ := by
    refine ⟨by simp [twoStale], by rw [IsStale]; decide +kernel, by simp [writesAt], ?_⟩
    exact ⟨⟨sampleBlob 12⟩, by decide +kernel, {dirPath}, by decide +kernel, by simp⟩
  refine ⟨input, hrun, by decide +kernel, by decide +kernel, hlookup, ?_, ?_⟩
  · refine ⟨_, (hstale.mem_shared_iff hrun).mpr rfl, ?_⟩
    rw [hlookup]
    decide +kernel
  · rintro ⟨hcreation, -⟩
    have hcreated := hcreation _ _ hstale
    rw [hlookup] at hcreated
    exact absurd hcreated (by decide +kernel)

end Samples

end Maw
