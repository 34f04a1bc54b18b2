import Maw.Core.Repo
import Maw.Library.ExceptRun
import Maw.Library.MergeFold
import Maw.Library.PointwiseFold
import Maw.Merge.Partition

/-!
# Resolution of a partition

Resolution turns every path of a partition into a change or into a record of a conflict. A path
with one change keeps it; a path with more goes through the classification of the changes and
the three-way merge of their contents. The paths of file and directory clashes are left out of
both, and each file of a clash gets a record.

## Main definitions

* `resolveEntries` — the merge algebra of one path.
* `resolveSharedPath`, `resolveSharedPathWithAst` — the two resolutions of a shared path.
* `emitDfClashConflicts` — the records of the clashes.
* `resolvePartition` — the resolution of a partition.

## Main results

* `resolveSharedPath_spec` — what the resolution of a shared path may return.
* `resolveEntries_upper` — a content that the merge algebra returns has the changes of all sides.
-/

namespace Maw

/-- Why a path could not be resolved. -/
inductive ConflictReason
  | addAddDifferent
  | modifyDelete
  | diff3Conflict
  | missingBase
  | missingContent
  | fileDirectory (fileSide : String) (dirChildExample : Path)
  deriving DecidableEq, Repr

/-- One side of the record of a conflict. -/
structure RecordSide where
  workspaceId : WorkspaceId
  kind : ChangeKind
  content : Option Bytes
  deriving DecidableEq, Repr

/-- The record of a conflict. -/
structure ConflictRecord where
  path : Path
  base : Option Bytes
  sides : List RecordSide
  reason : ConflictReason
  deriving DecidableEq, Repr

/-- A change that needs no more decisions. -/
inductive ResolvedChange
  | upsert (path : Path) (content : Bytes)
  | delete (path : Path)
  deriving DecidableEq, Repr

def ResolvedChange.path : ResolvedChange → Path
  | upsert p _ | delete p => p

structure ResolveResult where
  resolved : List ResolvedChange
  conflicts : List ConflictRecord
  deriving DecidableEq, Repr

inductive ResolveError
  | io (message : String)
  | gitCommand (command stderr : String) (exitCode : Option Int)
  deriving DecidableEq, Repr

/-! ### The merge algebra -/

section Algebra

variable {C ε : Type}

inductive MergeOutcome (C : Type)
  | delete
  | upsert (content : C)
  | conflict (reason : ConflictReason)
  deriving DecidableEq, Repr

inductive Diff3Result (C : Type)
  | clean (merged : C)
  | conflict
  deriving DecidableEq, Repr

inductive SharedClassification
  | resolvedDelete
  | resolvedIdentical
  | conflictModifyDelete
  | conflictMissingContent
  | conflictAddAddDifferent
  | conflictMissingBase
  | needsDiff3
  deriving DecidableEq, Repr

def classifySharedPath (kinds : List ChangeKind)
    (allHaveContent allContentEqual hasBase : Bool) : SharedClassification :=
  if kinds.all fun k => k = .deleted then .resolvedDelete
  else if kinds.any fun k => k = .deleted then .conflictModifyDelete
  else if !allHaveContent then .conflictMissingContent
  else if allContentEqual then .resolvedIdentical
  else if !hasBase then
    if kinds.all fun k => k = .added then .conflictAddAddDifferent else .conflictMissingBase
  else .needsDiff3

variable [DecidableEq C]

/-- Merge further variants into the first ones, each against the base. -/
def foldVariants (diff3 : C → C → C → Except ε (Diff3Result C)) (base : C) :
    C → List C → Except ε (MergeOutcome C)
  | merged, [] => .ok (.upsert merged)
  | merged, next :: rest =>
    if merged = next then foldVariants diff3 base merged rest
    else do
      match ← diff3 base merged next with
      | .clean out => foldVariants diff3 base out rest
      | .conflict => .ok (.conflict .diff3Conflict)

/-- Each variant is equal to the next one. -/
def allContentEqual (variants : List C) : Bool :=
  (variants.zip variants.tail).all fun w => w.1 = w.2

/-- What a classification leads to. -/
def resolveClassified (diff3 : C → C → C → Except ε (Diff3Result C)) (variants : List C)
    (base : Option C) : SharedClassification → Except ε (MergeOutcome C)
  | .resolvedDelete => .ok .delete
  | .conflictModifyDelete => .ok (.conflict .modifyDelete)
  | .conflictMissingContent => .ok (.conflict .missingContent)
  | .conflictAddAddDifferent => .ok (.conflict .addAddDifferent)
  | .conflictMissingBase => .ok (.conflict .missingBase)
  | .resolvedIdentical =>
    match variants with
    | first :: _ => .ok (.upsert first)
    | [] => .ok (.conflict .missingContent) -- Not reached: some change has content.
  | .needsDiff3 =>
    match variants, base with
    | first :: rest, some base => foldVariants diff3 base first rest
    | _, _ => .ok (.conflict .missingContent) -- Not reached: there is a base, too.

/-- Resolve the changes of one path, given by their kinds and contents. -/
def resolveEntries (entries : List (ChangeKind × Option C)) (base : Option C)
    (diff3 : C → C → C → Except ε (Diff3Result C)) : Except ε (MergeOutcome C) :=
  let variants := entries.filterMap (·.2)
  resolveClassified diff3 variants base
    (classifySharedPath (entries.map (·.1)) (entries.all fun e => e.1 = .deleted || e.2.isSome)
      (allContentEqual variants) base.isSome)

end Algebra

/-! ### Shared paths -/

/-- The result of `git merge-file -p --diff3`. -/
inductive Diff3Outcome
  | clean (merged : Bytes)
  | conflict (markerOutput : Bytes)
  deriving DecidableEq, Repr

/-- The result of a merge of syntax trees; a conflict names the workspaces of its edits. -/
inductive AstMergeResult
  | clean (merged : Bytes)
  | conflict (editWorkspaces : List WorkspaceId)
  | unsupported
  deriving DecidableEq, Repr

/-- The programs and libraries that resolution calls. -/
structure MergeTools where
  /-- `git merge-file -p --diff3` on the versions base, ours and theirs. -/
  diff3MergeBytes : (base ours theirs : Bytes) → Except ResolveError Diff3Outcome
  /-- Move the blocks of a variant back to where the base has them. -/
  normalizeShiftedBlocks : (base variant : Bytes) → Option Bytes
  /-- The merge of syntax trees, for the paths in an enabled language. -/
  astMerge : Path → Option ((base : Bytes) → List (WorkspaceId × Bytes) → AstMergeResult)
  /-- The text driver is the one of the repository. -/
  repo : Repo

/-- What the attributes of a repository say about the merge driver of a path. -/
abbrev AttrsMatcher := (path : List Char) → Option String

inductive PathMergeStrategy
  | diff3
  | union
  | ours
  | binary
  deriving DecidableEq, Repr

inductive SharedOutcome
  | resolved (change : ResolvedChange)
  | conflict (record : ConflictRecord)
  deriving DecidableEq, Repr

namespace SharedOutcome

def path : SharedOutcome → Path
  | resolved change => change.path
  | conflict record => record.path

def change? : SharedOutcome → Option ResolvedChange
  | resolved change => some change
  | conflict _ => none

def record? : SharedOutcome → Option ConflictRecord
  | resolved _ => none
  | conflict record => some record

end SharedOutcome

section Shared

variable (tools : MergeTools)

def pathMergeStrategy (path : Path) (attrs : Option AttrsMatcher) : PathMergeStrategy :=
  match attrs with
  | none => .diff3
  | some mergeDriver =>
    match mergeDriver path.treePath with
    | some "union" => .union
    | some "ours" => .ours
    | some "binary" => .binary
    | _ => .diff3

/-- The merge of a driver that settles every hunk. -/
def gitattrDriverMerge (base : Option Bytes) (entries : List PathEntry)
    (strategy : PathMergeStrategy) : Option Bytes :=
  let resolution : Option ConflictResolution :=
    match strategy with
    | .union => some .union
    | .ours => some .ours
    | .diff3 | .binary => none
  match entries.filterMap (·.content), resolution with
  | first :: next :: rest, some resolution =>
    (next :: rest).foldlM (fun acc theirs =>
      match mergeTextWithStyle tools.repo (base.getD []) acc theirs "ours" "base" "theirs"
        resolution with
      | .clean out => some out
      | .conflict _ => none) first
  | _, _ => none

/-- Whether all changes name the same blob. -/
def allBlobsEqual : List PathEntry → Bool
  | [] => true
  | first :: rest => first.blob.isSome && rest.all fun e => e.blob = first.blob

def conflictRecord (path : Path) (entries : List PathEntry) (base : Option Bytes)
    (reason : ConflictReason) : ConflictRecord :=
  { path := path
    base := base
    sides := entries.map fun e => ⟨e.workspaceId, e.kind, e.content⟩
    reason := reason }

/-- A second three-way merge, after moving blocks back into place. -/
def retryWithShiftedAlignment (base ours theirs : Bytes) :
    Except ResolveError (Option Bytes) :=
  let normalizedOurs := tools.normalizeShiftedBlocks base ours
  let normalizedTheirs := tools.normalizeShiftedBlocks base theirs
  if normalizedOurs.isNone && normalizedTheirs.isNone then .ok none
  else do
    match ← tools.diff3MergeBytes base (normalizedOurs.getD ours) (normalizedTheirs.getD theirs) with
    | .clean out => .ok (some out)
    | .conflict _ => .ok none

/-- The three-way merge of the merge algebra. -/
def diff3WithRetry (base ours theirs : Bytes) : Except ResolveError (Diff3Result Bytes) := do
  match ← tools.diff3MergeBytes base ours theirs with
  | .clean out => .ok (.clean out)
  | .conflict _ =>
    match ← retryWithShiftedAlignment tools base ours theirs with
    | some retried => .ok (.clean retried)
    | none => .ok .conflict

/-- Of the workspaces merged so far, those in conflict with the next one; all of them if there
is none. -/
def probeFoldedParticipants (base : Bytes) (oursMembers : List (WorkspaceId × Bytes))
    (trigger : Bytes) : List WorkspaceId :=
  let folded := oursMembers.filter fun m =>
    match tools.diff3MergeBytes base m.2 trigger with
    | .ok (.clean _) => false
    | .ok (.conflict _) | .error _ => true
  if folded.isEmpty then oursMembers.map (·.1) else folded.map (·.1)

/-- Repeat the merges of a path up to the first conflict, and name the workspaces in it. -/
def replayFold (base : Bytes) (all : List WorkspaceId) :
    Bytes → List (WorkspaceId × Bytes) → List (WorkspaceId × Bytes) → List WorkspaceId
  | _, _, [] => all
  | merged, oursMembers, (theirsWs, next) :: rest =>
    if merged = next then replayFold base all merged (oursMembers ++ [(theirsWs, next)]) rest
    else
      match tools.diff3MergeBytes base merged next with
      | .ok (.clean out) => replayFold base all out (oursMembers ++ [(theirsWs, next)]) rest
      | .ok (.conflict _) => probeFoldedParticipants tools base oursMembers next ++ [theirsWs]
      | .error _ => all

/-- The workspaces that take part in a conflict. -/
def recoverDiff3Participants (entries : List PathEntry) (base : Option Bytes) :
    List WorkspaceId :=
  let ids := entries.map (·.workspaceId)
  match base, ids, entries.filterMap (·.content) with
  | some base, id :: ids', first :: next :: rest =>
    replayFold tools base ids first [(id, first)] (ids'.zip (next :: rest))
  | _, _, _ => ids

/-- The contents that the merge algebra sees: one content for all when the blobs are equal. -/
def effectiveContents (entries : List PathEntry) : List (ChangeKind × Option Bytes) :=
  match entries.filterMap (·.content) with
  | first :: _ :: _ =>
    if allBlobsEqual entries then entries.map fun e => (e.kind, e.content.map fun _ => first)
    else entries.map fun e => (e.kind, e.content)
  | _ => entries.map fun e => (e.kind, e.content)

/-- The default resolution of a shared path, after the drivers. -/
def resolveByAlgebra (path : Path) (entries : List PathEntry) (base : Option Bytes) :
    Except ResolveError SharedOutcome := do
  match ← resolveEntries (effectiveContents entries) base (diff3WithRetry tools) with
  | .delete => .ok (.resolved (.delete path))
  | .upsert content => .ok (.resolved (.upsert path content))
  | .conflict .diff3Conflict =>
    let participants := recoverDiff3Participants tools entries base
    .ok (.conflict (conflictRecord path
      (entries.filter fun e => participants.contains e.workspaceId) base .diff3Conflict))
  | .conflict .addAddDifferent => .ok (.conflict (conflictRecord path entries none .addAddDifferent))
  | .conflict .missingBase => .ok (.conflict (conflictRecord path entries none .missingBase))
  | .conflict reason => .ok (.conflict (conflictRecord path entries base reason))

def resolveSharedPath (attrs : Option AttrsMatcher) (path : Path) (entries : List PathEntry)
    (base : Option Bytes) : Except ResolveError SharedOutcome :=
  let hasDelete := entries.any (·.isDeletion)
  match pathMergeStrategy path attrs with
  | .diff3 => resolveByAlgebra tools path entries base
  | .binary =>
    if allBlobsEqual entries then resolveByAlgebra tools path entries base
    else .ok (.conflict (conflictRecord path entries base .diff3Conflict))
  | strategy =>
    match gitattrDriverMerge tools base entries strategy with
    | some merged =>
      if hasDelete then resolveByAlgebra tools path entries base
      else .ok (.resolved (.upsert path merged))
    | none => resolveByAlgebra tools path entries base

/-- What a run of three-way merges leads to: a merged text, or the texts merged so far and the
one in conflict with them. -/
inductive FoldRun
  | merged (out : Bytes)
  | conflict (oursMembers : List (WorkspaceId × Bytes)) (triggerWs : WorkspaceId) (trigger : Bytes)
  deriving DecidableEq, Repr

def foldToConflict (base : Bytes) : Bytes → List (WorkspaceId × Bytes) →
    List (WorkspaceId × Bytes) → Except ResolveError FoldRun
  | merged, _, [] => .ok (.merged merged)
  | merged, oursMembers, (ws, next) :: rest =>
    if merged = next then foldToConflict base merged (oursMembers ++ [(ws, next)]) rest
    else do
      match ← tools.diff3MergeBytes base merged next with
      | .clean out => foldToConflict base out (oursMembers ++ [(ws, next)]) rest
      | .conflict _ => .ok (.conflict oursMembers ws next)

/-- The record of a three-way conflict between some of the changes. -/
def participantsRecord (path : Path) (entries : List PathEntry) (base : Bytes)
    (participants : List WorkspaceId) : ConflictRecord :=
  conflictRecord path (entries.filter fun e => participants.contains e.workspaceId) base
    .diff3Conflict

/-- The three-way merges of a shared path, and the merge of syntax trees after a conflict. -/
def resolveWithAst (path : Path) (entries : List PathEntry) (base : Bytes)
    (variants : List (WorkspaceId × Bytes)) : Except ResolveError SharedOutcome :=
  match variants with
  | [] => .ok (.resolved (.delete path)) -- The code indexes the first variant: it panics here.
  | (ws, first) :: rest => do
    match ← foldToConflict tools base first [(ws, first)] rest with
    | .merged out => .ok (.resolved (.upsert path out))
    | .conflict oursMembers triggerWs trigger =>
      let participants := probeFoldedParticipants tools base oursMembers trigger ++ [triggerWs]
      let astResult : Option AstMergeResult :=
        (tools.astMerge path).map fun astMerge => astMerge base variants
      match astResult with
      | some (.clean astMerged) => .ok (.resolved (.upsert path astMerged))
      | some (.conflict editWorkspaces) =>
        let astParticipants := (editWorkspaces.filter fun w =>
          entries.any fun e => e.workspaceId = w).dedup
        let chosen := if 2 ≤ astParticipants.length then astParticipants else participants
        .ok (.conflict (participantsRecord path entries base chosen))
      | some .unsupported | none =>
        .ok (.conflict (participantsRecord path entries base participants))

/-- What is left after the drivers: without a base the contents cannot be merged. -/
def resolveVariants (path : Path) (entries : List PathEntry) (base : Option Bytes)
    (variants : List (WorkspaceId × Bytes)) : Except ResolveError SharedOutcome :=
  match base with
  | none =>
    let reason : ConflictReason :=
      if entries.all fun e => e.kind = .added then .addAddDifferent else .missingBase
    .ok (.conflict (conflictRecord path entries none reason))
  | some base => resolveWithAst tools path entries base variants

def resolveSharedPathWithAst (attrs : Option AttrsMatcher) (path : Path)
    (entries : List PathEntry) (base : Option Bytes) : Except ResolveError SharedOutcome :=
  if entries.all (·.isDeletion) then .ok (.resolved (.delete path))
  else if entries.any (·.isDeletion) then
    .ok (.conflict (conflictRecord path entries base .modifyDelete))
  else
    match entries.mapM (·.content) with
    | none => .ok (.conflict (conflictRecord path entries base .missingContent))
    | some [] => .ok (.resolved (.delete path)) -- Not reached: some change is no deletion.
    | some (first :: rest) =>
      if allBlobsEqual entries || rest.all fun c => c = first then
        .ok (.resolved (.upsert path first))
      else
        let variants := (entries.map (·.workspaceId)).zip (first :: rest)
        match pathMergeStrategy path attrs with
        | .binary => .ok (.conflict (conflictRecord path entries base .diff3Conflict))
        | .diff3 => resolveVariants tools path entries base variants
        | strategy =>
          match gitattrDriverMerge tools base entries strategy with
          | some merged => .ok (.resolved (.upsert path merged))
          | none => resolveVariants tools path entries base variants

end Shared

/-! ### The partition -/

section Partition

/-- The record of a clash of a file with a directory. -/
def dfClashRecord (clash : DfClash) : ConflictRecord :=
  { path := clash.filePath
    base := none
    sides := [⟨clash.fileWs, .added, none⟩, ⟨clash.dirWs, .added, none⟩]
    reason := .fileDirectory clash.fileWs.name clash.dirChildExample }

/-- The first clash of each file. -/
def byFile (clashes : List DfClash) : FiniteMap Path DfClash :=
  clashes.foldl (fun byFile clash =>
    if clash.filePath ∈ byFile then byFile else byFile.insert clash.filePath clash) ∅

/-- One record for each file of a clash. -/
def emitDfClashConflicts (clashes : List DfClash) : List ConflictRecord :=
  (byFile clashes).sortedEntries.map fun e => dfClashRecord e.2

/-- A path with one change keeps it. -/
def resolveUnique (baseContents : FiniteMap Path Bytes) (u : Path × PathEntry) : SharedOutcome :=
  if u.2.isDeletion then .resolved (.delete u.1)
  else
    match u.2.content with
    | some content => .resolved (.upsert u.1 content)
    | none => .conflict
        { path := u.1
          base := baseContents.lookup u.1
          sides := [⟨u.2.workspaceId, u.2.kind, none⟩]
          reason := .missingContent }

/-- Resolution passes over the paths of the clashes. -/
def resolveUniques (partition : PartitionResult) (baseContents : FiniteMap Path Bytes) :
    List SharedOutcome :=
  (partition.unique.filter fun u => u.1 ∉ partition.dfClashPaths).map (resolveUnique baseContents)

def resolveShareds
    (resolveShared : Path → List PathEntry → Option Bytes → Except ResolveError SharedOutcome)
    (partition : PartitionResult) (baseContents : FiniteMap Path Bytes) :
    Except ResolveError (List SharedOutcome) :=
  (partition.shared.filter fun s => s.1 ∉ partition.dfClashPaths).mapM fun s =>
    resolveShared s.1 s.2 (baseContents.lookup s.1)

/-- Resolve a partition with a resolution of shared paths. -/
def resolvePartitionBy
    (resolveShared : Path → List PathEntry → Option Bytes → Except ResolveError SharedOutcome)
    (partition : PartitionResult) (baseContents : FiniteMap Path Bytes) :
    Except ResolveError ResolveResult := do
  let unique := resolveUniques partition baseContents
  let shared ← resolveShareds resolveShared partition baseContents
  pure
    { resolved := ((unique ++ shared).filterMap SharedOutcome.change?).insertionSort
        fun a b => a.path ≤ b.path
      conflicts := (emitDfClashConflicts partition.dfClashes ++
        (unique ++ shared).filterMap SharedOutcome.record?).insertionSort
          fun a b => a.path ≤ b.path }

def resolvePartitionWithAttrs (tools : MergeTools) (attrs : Option AttrsMatcher) :
    PartitionResult → FiniteMap Path Bytes → Except ResolveError ResolveResult :=
  resolvePartitionBy (resolveSharedPath tools attrs)

/-- The resolution of a build with syntax trees. -/
def resolvePartitionWithAstAndAttrs (tools : MergeTools) (attrs : Option AttrsMatcher) :
    PartitionResult → FiniteMap Path Bytes → Except ResolveError ResolveResult :=
  resolvePartitionBy (resolveSharedPathWithAst tools attrs)

def resolvePartition (tools : MergeTools) :
    PartitionResult → FiniteMap Path Bytes → Except ResolveError ResolveResult :=
  resolvePartitionWithAttrs tools none

end Partition

/-! ### What the resolution of a shared path may return -/

section Spec

open ExceptRun MergeFold

variable {C ε : Type} {entries : List PathEntry} {path : Path} {base : Option Bytes}

theorem classifySharedPath_eq_resolvedDelete {kinds : List ChangeKind} {a b c : Bool} :
    classifySharedPath kinds a b c = .resolvedDelete ↔ ∀ k ∈ kinds, k = .deleted := by
  simp only [classifySharedPath]
  split_ifs with h <;> simpa using h

theorem foldVariants_spec [DecidableEq C] {diff3 : C → C → C → Except ε (Diff3Result C)}
    {base : C} {rest : List C} : ∀ {merged : C} {out : MergeOutcome C},
    foldVariants diff3 base merged rest = .ok out →
      (∃ c, out = .upsert c) ∨ out = .conflict .diff3Conflict := by
  induction rest with
  | nil =>
    intro merged out h
    rw [foldVariants, Except.ok.injEq] at h
    exact .inl ⟨merged, h.symm⟩
  | cons next rest ih =>
    intro merged out h
    rw [foldVariants] at h
    by_cases heq : merged = next
    · rw [if_pos heq] at h
      exact ih h
    · rw [if_neg heq, bind_eq_ok] at h
      obtain ⟨r, -, h⟩ := h
      cases r with
      | clean merged' => exact ih h
      | conflict => exact .inr (Except.ok.inj h).symm

theorem resolveClassified_spec [DecidableEq C] {variants : List C} {base : Option C}
    {diff3 : C → C → C → Except ε (Diff3Result C)} {k : SharedClassification}
    {out : MergeOutcome C} (h : resolveClassified diff3 variants base k = .ok out) :
    (∀ c, out = .upsert c → k ≠ .resolvedDelete) ∧ ∀ s d, out ≠ .conflict (.fileDirectory s d) := by
  cases k with
  | needsDiff3 =>
    refine ⟨by simp, ?_⟩
    match variants, base with
    | first :: rest, some base =>
      rcases foldVariants_spec h with ⟨c, rfl⟩ | rfl <;> simp
    | [], _ | _ :: _, none =>
      cases h
      simp
  | resolvedIdentical =>
    refine ⟨by simp, ?_⟩
    cases variants <;> cases h <;> simp
  | _ =>
    cases h
    simp

/-- The merge algebra upserts only where some change is no deletion, and never speaks of
directories. -/
theorem resolveEntries_spec [DecidableEq C] {changes : List (ChangeKind × Option C)}
    {base : Option C} {diff3 : C → C → C → Except ε (Diff3Result C)} {out : MergeOutcome C}
    (h : resolveEntries changes base diff3 = .ok out) :
    (∀ c, out = .upsert c → ∃ e ∈ changes, e.1 ≠ .deleted) ∧
      ∀ s d, out ≠ .conflict (.fileDirectory s d) := by
  obtain ⟨hkind, hdir⟩ := resolveClassified_spec h
  refine ⟨fun c hc => ?_, hdir⟩
  have hne := hkind c hc
  rw [Ne, classifySharedPath_eq_resolvedDelete] at hne
  simpa using hne

/-! ### Clean merges -/

theorem allContentEqual_iff [DecidableEq C] {first : C} {rest : List C} :
    allContentEqual (first :: rest) = true ↔ ∀ v ∈ rest, v = first := by
  induction rest generalizing first with
  | nil => simp [allContentEqual]
  | cons next rest ih =>
    have hstep : allContentEqual (first :: next :: rest) = true ↔
        first = next ∧ allContentEqual (next :: rest) = true := by
      simp [allContentEqual]
    rw [hstep, ih, List.forall_mem_cons]
    constructor
    · rintro ⟨rfl, h⟩
      exact ⟨rfl, h⟩
    · rintro ⟨rfl, h⟩
      exact ⟨rfl, h⟩

theorem foldVariants_upsert_iff [DecidableEq C] {diff3 : C → C → C → Except ε (Diff3Result C)}
    {base : C} {rest : List C} : ∀ {merged out : C},
    foldVariants diff3 base merged rest = .ok (.upsert out) ↔
      MergesTo (fun ours theirs m => diff3 base ours theirs = .ok (.clean m)) merged rest out := by
  induction rest with
  | nil =>
    intro merged out
    rw [foldVariants]
    constructor
    · intro h
      cases h
      exact .nil merged
    · rintro ⟨⟩
      rfl
  | cons next rest ih =>
    intro merged out
    rw [foldVariants]
    by_cases heq : merged = next
    · subst heq
      rw [if_pos rfl, ih]
      constructor
      · exact .same merged
      · intro h
        cases h with
        | same _ h => exact h
        | step hne _ _ => exact absurd rfl hne
    · rw [if_neg heq, bind_eq_ok]
      constructor
      · rintro ⟨r, hr, h⟩
        cases r with
        | clean mid => exact .step heq hr (ih.mp h)
        | conflict => cases h
      · intro h
        cases h with
        | same _ _ => exact absurd rfl heq
        | step _ hmerge h => exact ⟨_, hmerge, ih.mpr h⟩

/-- The texts of a path merge one after another against a base, without a conflict. -/
def MergesCleanly (diff3 : C → C → C → Except ε (Diff3Result C)) (base : C) (texts : List C)
    (out : C) : Prop :=
  ∃ first rest, texts = first :: rest ∧
    MergesTo (fun ours theirs m => diff3 base ours theirs = .ok (.clean m)) first rest out

/-- The merge algebra deletes only what all changes delete. -/
theorem all_deleted_of_delete [DecidableEq C] {changes : List (ChangeKind × Option C)}
    {base : Option C} {diff3 : C → C → C → Except ε (Diff3Result C)}
    (h : resolveEntries changes base diff3 = .ok .delete) : ∀ e ∈ changes, e.1 = .deleted := by
  by_contra hlive
  have hall : ¬ (changes.map (·.1)).all (fun k => k = .deleted) = true := by simpa using hlive
  rw [resolveEntries] at h
  cases hk : classifySharedPath (changes.map (·.1))
      (changes.all fun e => e.1 = .deleted || e.2.isSome)
      (allContentEqual (changes.filterMap (·.2))) base.isSome with
  | resolvedDelete =>
    rw [classifySharedPath_eq_resolvedDelete] at hk
    exact hall (by simpa using hk)
  | needsDiff3 =>
    rw [hk] at h
    match hv : changes.filterMap (·.2), base with
    | first :: rest, some base =>
      rw [hv] at h
      rcases foldVariants_spec h with ⟨c, hc⟩ | hc <;> cases hc
    | [], _ | _ :: _, none =>
      rw [hv] at h
      cases h
  | resolvedIdentical =>
    rw [hk] at h
    cases hv : changes.filterMap (·.2) <;> rw [hv] at h <;> cases h
  | _ =>
    rw [hk] at h
    cases h

/-- Changes of which none is a deletion or lacks its content. -/
def AllWritten (changes : List (ChangeKind × Option C)) : Prop :=
  changes ≠ [] ∧ ∀ e ∈ changes, e.1 ≠ .deleted ∧ e.2.isSome

theorem allWritten_of_upsert [DecidableEq C] {changes : List (ChangeKind × Option C)}
    {base : Option C} {diff3 : C → C → C → Except ε (Diff3Result C)} {out : C}
    (h : resolveEntries changes base diff3 = .ok (.upsert out)) : AllWritten changes := by
  have hlive := (resolveEntries_spec h).1 out rfl
  have hnone : (changes.map (·.1)).any (fun k => k = .deleted) = false := by
    by_contra hany
    rw [Bool.not_eq_false] at hany
    have hall : ¬ (changes.map (·.1)).all (fun k => k = .deleted) = true := by simpa using hlive
    rw [resolveEntries, classifySharedPath, if_neg hall, if_pos hany] at h
    cases h
  have hcontent : (changes.all fun e => e.1 = .deleted || e.2.isSome) = true := by
    by_contra hall'
    have hall : ¬ (changes.map (·.1)).all (fun k => k = .deleted) = true := by simpa using hlive
    rw [resolveEntries, classifySharedPath, if_neg hall, if_neg (by simp [hnone]),
      if_pos (by simpa using hall')] at h
    cases h
  obtain ⟨e, he, -⟩ := hlive
  refine ⟨List.ne_nil_of_mem he, fun e he => ?_⟩
  have hkind : e.1 ≠ .deleted := by
    simpa using List.any_eq_false.mp hnone e.1 (List.mem_map_of_mem he)
  have hsome := List.all_eq_true.mp hcontent e he
  exact ⟨hkind, by simpa [hkind] using hsome⟩

/-- The contents of written changes. -/
theorem AllWritten.contents {changes : List (ChangeKind × Option C)} (h : AllWritten changes) :
    (∃ first rest, changes.filterMap (·.2) = first :: rest) ∧
      ∀ e ∈ changes, ∃ c ∈ changes.filterMap (·.2), e.2 = some c := by
  have hmem : ∀ e ∈ changes, ∃ c ∈ changes.filterMap (·.2), e.2 = some c := by
    intro e he
    obtain ⟨c, hc⟩ := Option.isSome_iff_exists.mp (h.2 e he).2
    exact ⟨c, List.mem_filterMap.mpr ⟨e, he, hc⟩, hc⟩
  refine ⟨?_, hmem⟩
  obtain ⟨e, he⟩ := List.exists_mem_of_ne_nil changes h.1
  obtain ⟨c, hc, -⟩ := hmem e he
  exact List.exists_cons_of_ne_nil (List.ne_nil_of_mem hc)

/-- Written changes that differ are merged against the base. -/
theorem resolveEntries_of_written [DecidableEq C] {changes : List (ChangeKind × Option C)}
    {base : C} {diff3 : C → C → C → Except ε (Diff3Result C)} {first : C} {rest : List C}
    (h : AllWritten changes) (hcontents : changes.filterMap (·.2) = first :: rest) :
    resolveEntries changes (some base) diff3 =
      if allContentEqual (first :: rest) then .ok (.upsert first)
      else foldVariants diff3 base first rest := by
  have hall : ¬ (changes.map (·.1)).all (fun k => k = .deleted) = true := by
    obtain ⟨e, he⟩ := List.exists_mem_of_ne_nil changes h.1
    intro hdel
    exact (h.2 e he).1 (by simpa using List.all_eq_true.mp hdel e.1 (List.mem_map_of_mem he))
  have hnone : ¬ (changes.map (·.1)).any (fun k => k = .deleted) = true := by
    simpa using fun o he => (h.2 (.deleted, o) he).1 rfl
  have hcontent : (changes.all fun e => e.1 = .deleted || e.2.isSome) = true := by
    rw [List.all_eq_true]
    intro e he
    simp [(h.2 e he).2]
  rw [resolveEntries, classifySharedPath, if_neg hall, if_neg hnone, hcontent, hcontents]
  cases allContentEqual (first :: rest) <;> rfl

/-- What the merge algebra returns has the changes that every content makes to the base, as far
as three-way merges keep the changes of both sides. -/
theorem resolveEntries_upper [DecidableEq C] {changes : List (ChangeKind × Option C)} {base : C}
    {diff3 : C → C → C → Except ε (Diff3Result C)} {out : C} {le : C → C → Prop} [Std.Refl le]
    [IsTrans C le] (hmerge : ∀ o t m, diff3 base o t = .ok (.clean m) → le o m ∧ le t m)
    (h : resolveEntries changes (some base) diff3 = .ok (.upsert out)) :
    ∀ e ∈ changes, ∀ c, e.2 = some c → le c out := by
  have hwritten := allWritten_of_upsert h
  obtain ⟨⟨first, rest, hcontents⟩, hmem⟩ := hwritten.contents
  rw [resolveEntries_of_written hwritten hcontents] at h
  have hupper : ∀ c ∈ first :: rest, le c out := by
    by_cases heq : allContentEqual (first :: rest) = true
    · rw [if_pos heq] at h
      cases h
      intro c hc
      rcases List.mem_cons.mp hc with rfl | hc
      · exact refl_of le _
      · rw [allContentEqual_iff.mp heq c hc]
        exact refl_of le _
    · rw [if_neg heq] at h
      exact (foldVariants_upsert_iff.mp h).upper hmerge
  intro e he c hc
  obtain ⟨c', hc', heq⟩ := hmem e he
  obtain rfl := Option.some.inj (hc.symm.trans heq)
  exact hupper c (hcontents ▸ hc')

/-! ### The outcomes of the two resolutions -/

/-- What may come out of the changes of a path. -/
structure IsOutcome (path : Path) (entries : List PathEntry) (outcome : SharedOutcome) : Prop where
  path_eq : outcome.path = path
  exists_live : ∀ c, outcome = .resolved (.upsert path c) → ∃ e ∈ entries, e.isDeletion = false
  ne_fileDirectory : ∀ r, outcome = .conflict r → ∀ s d, r.reason ≠ .fileDirectory s d

theorem isOutcome_delete : IsOutcome path entries (.resolved (.delete path)) where
  path_eq := rfl
  exists_live := by simp
  ne_fileDirectory := by simp

theorem isOutcome_upsert {c : Bytes} (h : ∃ e ∈ entries, e.isDeletion = false) :
    IsOutcome path entries (.resolved (.upsert path c)) where
  path_eq := rfl
  exists_live _ _ := h
  ne_fileDirectory := by simp

theorem isOutcome_conflict {some' : List PathEntry} {reason : ConflictReason}
    (h : ∀ s d, reason ≠ .fileDirectory s d) :
    IsOutcome path entries (.conflict (conflictRecord path some' base reason)) where
  path_eq := rfl
  exists_live := by simp
  ne_fileDirectory := by
    intro r hr
    cases hr
    exact h

variable {tools : MergeTools} {attrs : Option AttrsMatcher} {outcome : SharedOutcome}

theorem effectiveContents_kinds : (effectiveContents entries).map (·.1) = entries.map (·.kind) := by
  rw [effectiveContents]
  split
  · split_ifs <;> simp
  · simp

theorem exists_live_of_kinds (h : ∃ e ∈ effectiveContents entries, e.1 ≠ .deleted) :
    ∃ e ∈ entries, e.isDeletion = false := by
  obtain ⟨e, he, hne⟩ := h
  have hmem : e.1 ∈ entries.map (·.kind) := effectiveContents_kinds ▸ List.mem_map_of_mem he
  obtain ⟨x, hx, hkind⟩ := List.mem_map.mp hmem
  exact ⟨x, hx, by simpa [PathEntry.isDeletion, hkind] using hne⟩

theorem resolveByAlgebra_spec (h : resolveByAlgebra tools path entries base = .ok outcome) :
    IsOutcome path entries outcome := by
  rw [resolveByAlgebra, bind_eq_ok] at h
  obtain ⟨out, hout, h⟩ := h
  obtain ⟨hlive, hdir⟩ := resolveEntries_spec hout
  match out with
  | .delete =>
    cases h
    exact isOutcome_delete
  | .upsert c =>
    cases h
    exact isOutcome_upsert (exists_live_of_kinds (hlive c rfl))
  | .conflict (.fileDirectory s d) => exact absurd rfl (hdir s d)
  | .conflict .diff3Conflict | .conflict .addAddDifferent | .conflict .missingBase |
    .conflict .modifyDelete | .conflict .missingContent =>
    cases h
    exact isOutcome_conflict (by simp)

/-- A driver merges at least two contents. -/
theorem ne_nil_of_gitattrDriverMerge {strategy : PathMergeStrategy} {merged : Bytes}
    (h : gitattrDriverMerge tools base entries strategy = some merged) : entries ≠ [] := by
  rintro rfl
  simp [gitattrDriverMerge] at h

theorem exists_live_of_any (hne : entries ≠ []) (h : entries.any (·.isDeletion) = false) :
    ∃ e ∈ entries, e.isDeletion = false := by
  obtain ⟨e, he⟩ := List.exists_mem_of_ne_nil entries hne
  exact ⟨e, he, by simpa using List.any_eq_false.mp h e he⟩

theorem resolveSharedPath_spec (h : resolveSharedPath tools attrs path entries base = .ok outcome) :
    IsOutcome path entries outcome := by
  have hdriver (strategy : PathMergeStrategy)
      (h : (match gitattrDriverMerge tools base entries strategy with
        | some merged =>
          if entries.any (·.isDeletion) then resolveByAlgebra tools path entries base
          else .ok (.resolved (.upsert path merged))
        | none => resolveByAlgebra tools path entries base) = .ok outcome) :
      IsOutcome path entries outcome := by
    cases hmerge : gitattrDriverMerge tools base entries strategy with
    | none =>
      rw [hmerge] at h
      exact resolveByAlgebra_spec h
    | some merged =>
      rw [hmerge] at h
      cases hany : entries.any (·.isDeletion) with
      | true =>
        rw [hany] at h
        exact resolveByAlgebra_spec h
      | false =>
        rw [hany] at h
        cases h
        exact isOutcome_upsert (exists_live_of_any (ne_nil_of_gitattrDriverMerge hmerge) hany)
  rw [resolveSharedPath] at h
  cases hs : pathMergeStrategy path attrs with
  | diff3 =>
    rw [hs] at h
    exact resolveByAlgebra_spec h
  | binary =>
    rw [hs] at h
    cases hb : allBlobsEqual entries with
    | true =>
      rw [hb] at h
      exact resolveByAlgebra_spec h
    | false =>
      rw [hb] at h
      cases h
      exact isOutcome_conflict (by simp)
  | union =>
    rw [hs] at h
    exact hdriver .union h
  | ours =>
    rw [hs] at h
    exact hdriver .ours h

theorem resolveVariants_spec {variants : List (WorkspaceId × Bytes)}
    (hlive : ∃ e ∈ entries, e.isDeletion = false)
    (h : resolveVariants tools path entries base variants = .ok outcome) :
    IsOutcome path entries outcome := by
  match base with
  | none =>
    cases h
    exact isOutcome_conflict (by split_ifs <;> simp)
  | some base =>
    match variants with
    | [] =>
      cases h
      exact isOutcome_delete
    | (ws, first) :: rest =>
      rw [resolveVariants, resolveWithAst, bind_eq_ok] at h
      obtain ⟨run, -, h⟩ := h
      cases run with
      | merged out =>
        cases h
        exact isOutcome_upsert hlive
      | conflict members triggerWs trigger =>
        simp only at h
        split at h
        all_goals cases h
        · exact isOutcome_upsert hlive
        · exact isOutcome_conflict (by simp)
        · exact isOutcome_conflict (by simp)
        · exact isOutcome_conflict (by simp)

theorem resolveSharedPathWithAst_spec
    (h : resolveSharedPathWithAst tools attrs path entries base = .ok outcome) :
    IsOutcome path entries outcome := by
  rw [resolveSharedPathWithAst] at h
  by_cases hall : entries.all (·.isDeletion) = true
  · rw [if_pos hall] at h
    cases h
    exact isOutcome_delete
  · have hlive : ∃ e ∈ entries, e.isDeletion = false := by simpa using hall
    rw [if_neg hall] at h
    split at h
    · cases h
      exact isOutcome_conflict (by simp)
    · split at h
      · cases h
        exact isOutcome_conflict (by simp)
      · cases h
        exact isOutcome_delete
      · split at h
        · cases h
          exact isOutcome_upsert hlive
        · split at h
          · cases h
            exact isOutcome_conflict (by simp)
          · exact resolveVariants_spec hlive h
          · split at h
            · cases h
              exact isOutcome_upsert hlive
            · exact resolveVariants_spec hlive h

end Spec

end Maw
