import Maw.Merge.ResolveDetail
import Maw.Merge.ResolveOrder

/-!
# Resolution of a path with syntax trees of no language

There are two resolutions of a shared path, and the one with syntax trees is to be the plain one
where no language is enabled for the path. Both go down one ladder (all deleted, some deleted, a
content missing, all equal), but the plain one asks the merge driver of the path before the ladder
and the other one at its end, and only the plain one merges again with moved blocks put back after a
conflict.

## Main definitions

* `ladder` — what both do with changes that do not differ.
* `Degenerates` — the changes of a path for which both do the same.

## Main results

* `resolveByAlgebraDetail_eq_ladder` — the merge algebra goes down the ladder.
* `withAst_eq_plain_iff` — the two resolutions of a shared path.
-/

namespace Maw

/-! ### The ladder -/

section Ladder

variable {path : Path} {entries : List PathEntry} {base : Option Bytes} {first : Bytes}
  {rest : List Bytes} {f g : Bytes → List Bytes → Except ResolveError DetailedOutcome}

/-- All changes have the blob, or the content, of the first one. -/
def sameContent (entries : List PathEntry) (first : Bytes) (rest : List Bytes) : Bool :=
  allBlobsEqual entries || rest.all fun c => c = first

/-- The outcome of changes, with a function for contents that differ. -/
def ladder (path : Path) (entries : List PathEntry) (base : Option Bytes)
    (differ : Bytes → List Bytes → Except ResolveError DetailedOutcome) :
    Except ResolveError DetailedOutcome :=
  if entries.all (·.isDeletion) then .ok (.resolved (.delete path))
  else if entries.any (·.isDeletion) then
    .ok (.conflict (conflictRecord path entries base .modifyDelete) [])
  else
    match entries.mapM (·.content) with
    | none => .ok (.conflict (conflictRecord path entries base .missingContent) [])
    | some [] => .ok (.resolved (.delete path))
    | some (first :: rest) =>
      if sameContent entries first rest then .ok (.resolved (.upsert path first))
      else differ first rest

/-- None is deleted, all have contents, and these differ. -/
structure Differ (entries : List PathEntry) (first : Bytes) (rest : List Bytes) : Prop where
  noDelete : entries.any (·.isDeletion) = false
  contents : entries.mapM (·.content) = some (first :: rest)
  notSame : sameContent entries first rest = false

theorem Differ.notAll (h : Differ entries first rest) : entries.all (·.isDeletion) = false := by
  cases entries with
  | nil => cases h.contents
  | cons e entries =>
    have hnone := h.noDelete
    rw [List.any_cons, Bool.or_eq_false_iff] at hnone
    rw [List.all_cons, hnone.1]
    rfl

theorem Differ.ladder (h : Differ entries first rest) :
    ladder path entries base f = f first rest := by
  rw [Maw.ladder, h.notAll, h.noDelete, h.contents]
  simp [h.notSame]

/-- Only contents that differ get to the function. -/
theorem ladder_congr_iff : ladder path entries base f = ladder path entries base g ↔
    ∀ first rest, Differ entries first rest → f first rest = g first rest := by
  constructor
  · intro h first rest hdiffer
    rwa [hdiffer.ladder, hdiffer.ladder] at h
  · intro h
    rw [Maw.ladder, Maw.ladder]
    split_ifs with hall hany
    · rfl
    · rfl
    · match hcontents : entries.mapM (·.content) with
      | none | some [] => rfl
      | some (first :: rest) =>
        dsimp only
        split_ifs with hsame
        · rfl
        · exact h first rest ⟨by simpa using hany, hcontents, by simpa using hsame⟩

end Ladder

/-! ### The merge algebra as a ladder -/

section Algebra

variable {path : Path} {entries : List PathEntry} {base : Option Bytes} {first : Bytes}
  {rest : List Bytes}

theorem mapM_content_eq_some {contents : List Bytes} :
    entries.mapM (·.content) = some contents ↔ entries.map (·.content) = contents.map some := by
  induction entries generalizing contents with
  | nil => cases contents <;> simp
  | cons e entries ih =>
    rw [List.mapM_cons, List.map_cons]
    cases contents with
    | nil =>
      cases e.content <;> cases entries.mapM (·.content) <;> simp
    | cons c contents =>
      rw [List.map_cons, List.cons.injEq, ← ih]
      cases e.content <;> cases entries.mapM (·.content) <;> simp

theorem exists_none_of_mapM (h : entries.mapM (·.content) = none) :
    ∃ e ∈ entries, e.content = none := by
  by_contra hall
  have hsome : ∀ e ∈ entries, e.content.isSome := fun e he =>
    Option.isSome_iff_ne_none.mpr fun hnone => hall ⟨e, he, hnone⟩
  have hmap : entries.map (·.content) = (entries.filterMap (·.content)).map some := by
    clear h hall
    induction entries with
    | nil => rfl
    | cons e entries ih =>
      obtain ⟨c, hc⟩ := Option.isSome_iff_exists.mp (hsome e List.mem_cons_self)
      rw [List.map_cons, List.filterMap_cons, hc, List.map_cons,
        ih fun e' he' => hsome e' (List.mem_cons_of_mem _ he')]
  rw [mapM_content_eq_some.mpr hmap] at h
  cases h

theorem filterMap_content (h : entries.mapM (·.content) = some (first :: rest)) :
    entries.filterMap (·.content) = first :: rest := by
  have hmap : (entries.map (·.content)).filterMap id = ((first :: rest).map some).filterMap id := by
    rw [mapM_content_eq_some.mp h]
  rw [List.filterMap_map, List.filterMap_map] at hmap
  exact hmap.trans List.filterMap_some

theorem effectiveContents_all :
    ((effectiveContents entries).all fun e => e.1 = .deleted || e.2.isSome) =
      entries.all fun e => e.isDeletion || e.content.isSome := by
  rw [effectiveContents]
  split
  · split_ifs <;> simp [List.all_map, PathEntry.isDeletion, Function.comp_def]
  · simp [List.all_map, PathEntry.isDeletion, Function.comp_def]

theorem kinds_all : ((effectiveContents entries).map (·.1)).all (fun k => k = .deleted) =
    entries.all (·.isDeletion) := by
  rw [effectiveContents_kinds, List.all_map]
  rfl

theorem kinds_any : ((effectiveContents entries).map (·.1)).any (fun k => k = .deleted) =
    entries.any (·.isDeletion) := by
  rw [effectiveContents_kinds, List.any_map]
  rfl

theorem effectiveContents_of_not_blobs (hblobs : allBlobsEqual entries = false) :
    effectiveContents entries = entries.map fun e => (e.kind, e.content) := by
  rw [effectiveContents]
  split
  · rw [if_neg (by simp [hblobs])]
  · rfl

theorem contents_of_blobs (h : entries.mapM (·.content) = some (first :: rest))
    (hblobs : allBlobsEqual entries = true) :
    (effectiveContents entries).filterMap (·.2) = (first :: rest).map fun _ => first := by
  have hcontents := filterMap_content h
  rw [effectiveContents, hcontents]
  cases rest with
  | nil =>
    dsimp only
    rw [List.filterMap_map]
    exact hcontents
  | cons next rest =>
    dsimp only
    rw [if_pos hblobs, List.filterMap_map, ← hcontents, List.map_filterMap]
    rfl

theorem contents_of_not_blobs (h : entries.mapM (·.content) = some (first :: rest))
    (hblobs : allBlobsEqual entries = false) :
    (effectiveContents entries).filterMap (·.2) = first :: rest := by
  rw [effectiveContents_of_not_blobs hblobs, List.filterMap_map]
  exact filterMap_content h

theorem effectiveContents_all_of_mapM (h : entries.mapM (·.content) = some (first :: rest)) :
    ((effectiveContents entries).all fun e => e.1 = .deleted || e.2.isSome) = true := by
  rw [effectiveContents_all, List.all_eq_true]
  intro e he
  have hmem : e.content ∈ (first :: rest).map some :=
    mapM_content_eq_some.mp h ▸ List.mem_map_of_mem he
  obtain ⟨c, -, hc⟩ := List.mem_map.mp hmem
  rw [← hc]
  exact Bool.or_true _

theorem allWritten_effective (h : entries.mapM (·.content) = some (first :: rest))
    (hnone : entries.any (·.isDeletion) = false) : AllWritten (effectiveContents entries) := by
  constructor
  · intro hnil
    have hkinds : (effectiveContents entries).map (·.1) = entries.map (·.kind) :=
      effectiveContents_kinds
    rw [hnil] at hkinds
    have hentries : entries = [] := List.map_eq_nil_iff.mp hkinds.symm
    rw [hentries] at h
    cases h
  · intro e he
    rw [← kinds_any, List.any_map] at hnone
    have hkind : ¬ e.1 = .deleted := by simpa using List.any_eq_false.mp hnone e he
    have hcontent := List.all_eq_true.mp (effectiveContents_all_of_mapM h) e he
    exact ⟨hkind, by simpa [hkind] using hcontent⟩

theorem kinds_added : ((effectiveContents entries).map (·.1)).all (fun k => k = .added) =
    entries.all fun e => e.kind = .added := by
  rw [effectiveContents_kinds, List.all_map]
  rfl

/-- Contents that differ cannot be merged without a base. -/
theorem resolveEntries_of_differ_none (hdiffer : Differ entries first rest)
    {diff3 : Bytes → Bytes → Bytes → Except ResolveError (Diff3Result Bytes)} :
    resolveEntries (effectiveContents entries) none diff3 = .ok (.conflict
      (if entries.all fun e => e.kind = .added then .addAddDifferent else .missingBase)) := by
  have hsame := hdiffer.notSame
  rw [sameContent, Bool.or_eq_false_iff] at hsame
  have hequal : allContentEqual ((effectiveContents entries).filterMap (·.2)) = false := by
    rw [contents_of_not_blobs hdiffer.contents hsame.1, Bool.eq_false_iff, Ne, allContentEqual_iff]
    intro hall
    exact absurd hsame.2 (by simpa using hall)
  rw [resolveEntries, classifySharedPath, kinds_all, kinds_any, hdiffer.notAll, hdiffer.noDelete,
    effectiveContents_all_of_mapM hdiffer.contents, hequal, kinds_added]
  cases entries.all fun e => e.kind = .added <;> rfl

/-- With a base, contents that differ are merged one after another. -/
theorem resolveEntries_of_differ_some {b : Bytes} (hdiffer : Differ entries first rest)
    {diff3 : Bytes → Bytes → Bytes → Except ResolveError (Diff3Result Bytes)} :
    resolveEntries (effectiveContents entries) (some b) diff3 =
      foldVariants diff3 b first rest := by
  have hsame := hdiffer.notSame
  rw [sameContent, Bool.or_eq_false_iff] at hsame
  have hwritten := allWritten_effective hdiffer.contents hdiffer.noDelete
  rw [resolveEntries_of_written hwritten (contents_of_not_blobs hdiffer.contents hsame.1), if_neg]
  rw [allContentEqual_iff]
  intro hall
  exact absurd hsame.2 (by simpa using hall)

theorem resolveEntries_of_same (h : entries.mapM (·.content) = some (first :: rest))
    (hnone : entries.any (·.isDeletion) = false) (hsame : sameContent entries first rest = true)
    {diff3 : Bytes → Bytes → Bytes → Except ResolveError (Diff3Result Bytes)} :
    resolveEntries (effectiveContents entries) base diff3 = .ok (.upsert first) := by
  have hwritten := allWritten_effective h hnone
  cases hblobs : allBlobsEqual entries with
  | true =>
    refine resolveEntries_of_equal hwritten (contents_of_blobs h hblobs) ?_
    rw [allContentEqual_iff]
    intro c hc
    obtain ⟨-, -, rfl⟩ := List.mem_map.mp hc
    rfl
  | false =>
    rw [sameContent, hblobs, Bool.false_or, List.all_eq_true] at hsame
    refine resolveEntries_of_equal hwritten (contents_of_not_blobs h hblobs) ?_
    exact allContentEqual_iff.mpr fun c hc => by simpa using hsame c hc

/-- What the merge algebra makes of contents that differ. -/
def differPlain (tools : DetailTools) (path : Path) (entries : List PathEntry)
    (base : Option Bytes) (first : Bytes) (rest : List Bytes) :
    Except ResolveError DetailedOutcome :=
  match base with
  | none => .ok (.conflict (conflictRecord path entries none
      (if entries.all fun e => e.kind = .added then .addAddDifferent else .missingBase)) [])
  | some b => (foldVariants (diff3WithRetry tools.toMergeTools) b first rest).map
      (algebraOutcome tools path entries base)

/-- The merge algebra goes down the ladder. -/
theorem resolveByAlgebraDetail_eq_ladder (tools : DetailTools) :
    resolveByAlgebraDetail tools path entries base =
      ladder path entries base (differPlain tools path entries base) := by
  have halgebra (outcome : MergeOutcome Bytes)
      (h : resolveEntries (effectiveContents entries) base
        (diff3WithRetry tools.toMergeTools) = .ok outcome) :
      resolveByAlgebraDetail tools path entries base =
        .ok (algebraOutcome tools path entries base outcome) := by
    rw [resolveByAlgebraDetail, h]
    rfl
  rw [ladder]
  split_ifs with hall hany
  · refine halgebra .delete ?_
    rw [resolveEntries, classifySharedPath, kinds_all, hall]
    rfl
  · refine halgebra (.conflict .modifyDelete) ?_
    rw [resolveEntries, classifySharedPath, kinds_all, if_neg hall, kinds_any, hany]
    rfl
  · rcases hcontents : entries.mapM (·.content) with _ | _ | ⟨first, rest⟩
    · simp only [hcontents]
      refine halgebra (.conflict .missingContent) ?_
      obtain ⟨e, he, hnone⟩ := exists_none_of_mapM hcontents
      have hmissing : ((effectiveContents entries).all fun e =>
          e.1 = .deleted || e.2.isSome) = false := by
        rw [effectiveContents_all, List.all_eq_false]
        refine ⟨e, he, ?_⟩
        have hlive := List.any_eq_false.mp (Bool.eq_false_iff.mpr hany) e he
        simp [hnone, hlive]
      rw [resolveEntries, classifySharedPath, kinds_all, if_neg hall, kinds_any, if_neg hany,
        hmissing]
      rfl
    · rw [mapM_content_eq_some] at hcontents
      rw [List.map_eq_nil_iff.mp hcontents] at hall
      exact absurd rfl hall
    · simp only [hcontents]
      split_ifs with hsame
      · exact halgebra _ (resolveEntries_of_same hcontents (Bool.eq_false_iff.mpr hany) hsame)
      · have hdiffer : Differ entries first rest :=
          ⟨Bool.eq_false_iff.mpr hany, hcontents, Bool.eq_false_iff.mpr hsame⟩
        cases base with
        | none =>
          rw [halgebra _ (resolveEntries_of_differ_none hdiffer), differPlain]
          cases entries.all fun e => e.kind = .added <;> rfl
        | some b =>
          rw [resolveByAlgebraDetail, resolveEntries_of_differ_some hdiffer, differPlain]
          cases foldVariants (diff3WithRetry tools.toMergeTools) b first rest <;> rfl

end Algebra

/-! ### Merges without a second try -/

section Folds

variable {tools : DetailTools} {path : Path} {entries : List PathEntry} {base : Option Bytes}
  {first : Bytes} {rest : List Bytes}

/-- Three-way merges without moving blocks back into place. -/
def diff3Plain (tools : MergeTools) (base ours theirs : Bytes) :
    Except ResolveError (Diff3Result Bytes) := do
  match ← tools.diff3MergeBytes base ours theirs with
  | .clean out => .ok (.clean out)
  | .conflict _ => .ok .conflict

/-- Contents that are in conflict stay so when merges are tried again. -/
def RetrySettlesNothing (tools : MergeTools) (base first : Bytes) (rest : List Bytes) : Prop :=
  foldVariants (diff3Plain tools) base first rest = .ok (.conflict .diff3Conflict) →
    foldVariants (diff3WithRetry tools) base first rest = .ok (.conflict .diff3Conflict)

/-- A run of merges up to the first conflict, beside the others. -/
def RunAgrees (tools : DetailTools) (base : Bytes) (all : List WorkspaceId) (merged : Bytes)
    (members rest : List (WorkspaceId × Bytes)) : Except ResolveError MarkedRun → Prop
  | .ok (.merged out) =>
    foldVariants (diff3WithRetry tools.toMergeTools) base merged (rest.map (·.2)) =
        .ok (.upsert out) ∧
      foldVariants (diff3Plain tools.toMergeTools) base merged (rest.map (·.2)) =
        .ok (.upsert out)
  | .ok (.conflict oursMembers triggerWs trigger markerOutput) =>
    replayFoldAtoms tools base all merged members rest =
        (foldAtoms (probeFoldedParticipants tools.toMergeTools base oursMembers trigger) triggerWs
          markerOutput,
          probeFoldedParticipants tools.toMergeTools base oursMembers trigger ++ [triggerWs]) ∧
      foldVariants (diff3Plain tools.toMergeTools) base merged (rest.map (·.2)) =
        .ok (.conflict .diff3Conflict)
  | .error e =>
    foldVariants (diff3WithRetry tools.toMergeTools) base merged (rest.map (·.2)) = .error e ∧
      foldVariants (diff3Plain tools.toMergeTools) base merged (rest.map (·.2)) = .error e

/-- A run that goes on agrees as the rest of it does. -/
theorem RunAgrees.of_rest {b merged merged' : Bytes} {all : List WorkspaceId}
    {members members' rest rest' : List (WorkspaceId × Bytes)} {run : Except ResolveError MarkedRun}
    (h : RunAgrees tools b all merged' members' rest' run)
    (hreplay : replayFoldAtoms tools b all merged members rest =
      replayFoldAtoms tools b all merged' members' rest')
    (hretry : foldVariants (diff3WithRetry tools.toMergeTools) b merged (rest.map (·.2)) =
      foldVariants (diff3WithRetry tools.toMergeTools) b merged' (rest'.map (·.2)))
    (hplain : foldVariants (diff3Plain tools.toMergeTools) b merged (rest.map (·.2)) =
      foldVariants (diff3Plain tools.toMergeTools) b merged' (rest'.map (·.2))) :
    RunAgrees tools b all merged members rest run := by
  match run with
  | .ok (.merged _) | .ok (.conflict _ _ _ _) | .error _ =>
    simpa only [RunAgrees, hreplay, hretry, hplain] using h

theorem runAgrees_foldToMarkers {b : Bytes} (all : List WorkspaceId)
    {rest : List (WorkspaceId × Bytes)} :
    ∀ (merged : Bytes) (members : List (WorkspaceId × Bytes)),
      RunAgrees tools b all merged members rest (foldToMarkers tools b merged members rest) := by
  induction rest with
  | nil => exact fun merged members => ⟨rfl, rfl⟩
  | cons pair rest ih =>
    obtain ⟨ws, next⟩ := pair
    intro merged members
    by_cases heq : merged = next
    · rw [foldToMarkers, if_pos heq]
      refine (ih merged (members ++ [(ws, next)])).of_rest ?_ ?_ ?_
      · rw [replayFoldAtoms, if_pos heq]
      · rw [List.map_cons, foldVariants, if_pos heq]
      · rw [List.map_cons, foldVariants, if_pos heq]
    · rw [foldToMarkers, if_neg heq]
      cases hmerge : tools.diff3MergeBytes b merged next with
      | error e =>
        constructor
        · rw [List.map_cons, foldVariants, if_neg heq, diff3WithRetry, hmerge]
          rfl
        · rw [List.map_cons, foldVariants, if_neg heq, diff3Plain, hmerge]
          rfl
      | ok outcome =>
        cases outcome with
        | conflict markers =>
          constructor
          · rw [replayFoldAtoms, if_neg heq, hmerge]
          · rw [List.map_cons, foldVariants, if_neg heq, diff3Plain, hmerge]
            rfl
        | clean out =>
          refine (ih out (members ++ [(ws, next)])).of_rest ?_ ?_ ?_
          · rw [replayFoldAtoms, if_neg heq, hmerge]
          · rw [List.map_cons, foldVariants, if_neg heq, diff3WithRetry, hmerge]
            rfl
          · rw [List.map_cons, foldVariants, if_neg heq, diff3Plain, hmerge]
            rfl

/-- What a run of merges makes of a path for which there are no syntax trees. -/
def runOutcome (tools : DetailTools) (path : Path) (entries : List PathEntry) (base : Bytes) :
    MarkedRun → DetailedOutcome
  | .merged out => .resolved (.upsert path out)
  | .conflict oursMembers triggerWs trigger markerOutput =>
    let folded := probeFoldedParticipants tools.toMergeTools base oursMembers trigger
    .conflict (participantsRecord path entries base (folded ++ [triggerWs]))
      (foldAtoms folded triggerWs markerOutput)

theorem resolveWithAstDetail_of_none (hast : tools.astMerge path = none) {b : Bytes}
    {ws : WorkspaceId} {pairs : List (WorkspaceId × Bytes)} :
    resolveWithAstDetail tools path entries b ((ws, first) :: pairs) =
      (foldToMarkers tools b first [(ws, first)] pairs).map (runOutcome tools path entries b) := by
  rw [resolveWithAstDetail, hast]
  cases foldToMarkers tools b first [(ws, first)] pairs with
  | error e => rfl
  | ok run => cases run <;> rfl

theorem RunAgrees.outcome_eq_iff {b merged : Bytes} {all : List WorkspaceId}
    {members pairs : List (WorkspaceId × Bytes)} {run : Except ResolveError MarkedRun}
    (h : RunAgrees tools b all merged members pairs run)
    (hrecover : recoverDiff3AtomsWithParticipants tools entries (some b) =
      replayFoldAtoms tools b all merged members pairs) :
    run.map (runOutcome tools path entries b) =
        (foldVariants (diff3WithRetry tools.toMergeTools) b merged (pairs.map (·.2))).map
          (algebraOutcome tools path entries (some b)) ↔
      RetrySettlesNothing tools.toMergeTools b merged (pairs.map (·.2)) := by
  match run with
  | .ok (.merged out) =>
    obtain ⟨hretry, hplain⟩ := h
    refine iff_of_true ?_ fun hconflict => ?_
    · rw [hretry]
      rfl
    · rw [hplain] at hconflict
      cases hconflict
  | .error e =>
    obtain ⟨hretry, hplain⟩ := h
    refine iff_of_true ?_ fun hconflict => ?_
    · rw [hretry]
      rfl
    · rw [hplain] at hconflict
      cases hconflict
  | .ok (.conflict oursMembers triggerWs trigger markerOutput) =>
    obtain ⟨hreplay, hplain⟩ := h
    constructor
    · intro heq _
      cases hretry :
          foldVariants (diff3WithRetry tools.toMergeTools) b merged (pairs.map (·.2)) with
      | error e =>
        rw [hretry] at heq
        cases heq
      | ok outcome =>
        rcases foldVariants_spec hretry with ⟨c, rfl⟩ | rfl
        · rw [hretry] at heq
          cases heq
        · rfl
    · intro hsettles
      rw [hsettles hplain]
      change Except.ok _ = Except.ok (algebraOutcome tools path entries (some b) _)
      rw [algebraOutcome, hrecover, hreplay]
      rfl

/-- Without syntax trees, contents that differ resolve as in the merge algebra where trying merges
again settles nothing. -/
theorem resolveVariants_eq_iff (hdiffer : Differ entries first rest)
    (hast : tools.astMerge path = none) :
    resolveVariantsDetail tools path entries base
        ((entries.map (·.workspaceId)).zip (first :: rest)) =
      differPlain tools path entries base first rest ↔
      ∀ b, base = some b → RetrySettlesNothing tools.toMergeTools b first rest := by
  cases base with
  | none => exact iff_of_true rfl fun b hb => by cases hb
  | some b =>
    have hlen : entries.length = (first :: rest).length := by
      have hmap := congrArg List.length (mapM_content_eq_some.mp hdiffer.contents)
      rwa [List.length_map, List.length_map] at hmap
    match entries, rest with
    | [], _ => exact absurd hlen (by simp)
    | _ :: _, [] =>
      have hsame := hdiffer.notSame
      simp [sameContent] at hsame
    | e :: es, next :: rest =>
      have hpairs : ((es.map (·.workspaceId)).zip (next :: rest)).map (·.2) = next :: rest := by
        refine List.map_snd_zip ?_
        rw [List.length_map]
        simpa using hlen.ge
      have hrecover : recoverDiff3AtomsWithParticipants tools (e :: es) (some b) =
          replayFoldAtoms tools b ((e :: es).map (·.workspaceId)) first [(e.workspaceId, first)]
            ((es.map (·.workspaceId)).zip (next :: rest)) := by
        unfold recoverDiff3AtomsWithParticipants
        rw [filterMap_content hdiffer.contents]
        rfl
      have hiff : (foldToMarkers tools b first [(e.workspaceId, first)] _).map
          (runOutcome tools path (e :: es) b) = _ ↔ _ :=
        (runAgrees_foldToMarkers _ first _).outcome_eq_iff hrecover
      rw [hpairs] at hiff
      rw [resolveVariantsDetail, List.map_cons, List.zip_cons_cons,
        resolveWithAstDetail_of_none hast, differPlain, hiff]
      simp

end Folds

/-! ### One path -/

section Shared

variable {tools : DetailTools} {attrs : Option AttrsMatcher} {path : Path}
  {entries : List PathEntry} {base : Option Bytes}

/-- Trying merges again settles nothing for the path. -/
def NoRetryHelps (tools : MergeTools) (entries : List PathEntry) (base : Option Bytes) : Prop :=
  ∀ b first rest, base = some b → Differ entries first rest →
    RetrySettlesNothing tools b first rest

/-- The changes of a path for which both resolutions do the same. A binary file has the blob of the
first change in all of them, or contents that differ; a driver that merges the contents which are
there has all of them, and merges equal ones to the first. -/
def Degenerates (tools : MergeTools) (attrs : Option AttrsMatcher) (path : Path)
    (entries : List PathEntry) (base : Option Bytes) : Prop :=
  match pathMergeStrategy path attrs with
  | .diff3 => NoRetryHelps tools entries base
  | .binary => allBlobsEqual entries = true ∨ ∃ first rest, Differ entries first rest
  | strategy =>
    match gitattrDriverMerge tools base entries strategy with
    | none => NoRetryHelps tools entries base
    | some merged => entries.any (·.isDeletion) = true ∨
      ∃ first rest, entries.mapM (·.content) = some (first :: rest) ∧
        (sameContent entries first rest = true → merged = first)

/-- What the resolution with syntax trees makes of contents that differ. -/
def differWithAst (tools : DetailTools) (attrs : Option AttrsMatcher) (path : Path)
    (entries : List PathEntry) (base : Option Bytes) (first : Bytes) (rest : List Bytes) :
    Except ResolveError DetailedOutcome :=
  let variants := (entries.map (·.workspaceId)).zip (first :: rest)
  match pathMergeStrategy path attrs with
  | .binary => .ok (.conflict (conflictRecord path entries base .diff3Conflict) [])
  | .diff3 => resolveVariantsDetail tools path entries base variants
  | strategy =>
    match gitattrDriverMerge tools.toMergeTools base entries strategy with
    | some merged => .ok (.resolved (.upsert path merged))
    | none => resolveVariantsDetail tools path entries base variants

theorem resolveSharedPathWithAstDetail_eq_ladder :
    resolveSharedPathWithAstDetail tools attrs path entries base =
      ladder path entries base (differWithAst tools attrs path entries base) := rfl

/-- The two resolutions at the end of the ladder. -/
theorem ladders_eq_iff (hast : tools.astMerge path = none) :
    (ladder path entries base fun first rest => resolveVariantsDetail tools path entries base
        ((entries.map (·.workspaceId)).zip (first :: rest))) =
      resolveByAlgebraDetail tools path entries base ↔
      NoRetryHelps tools.toMergeTools entries base := by
  rw [resolveByAlgebraDetail_eq_ladder, ladder_congr_iff]
  constructor
  · intro h b first rest hb hdiffer
    exact (resolveVariants_eq_iff hdiffer hast).mp (h first rest hdiffer) b hb
  · intro h first rest hdiffer
    exact (resolveVariants_eq_iff hdiffer hast).mpr fun b hb => h b first rest hb hdiffer

theorem allBlobsEqual_not_differ (hblobs : allBlobsEqual entries = true) {first : Bytes}
    {rest : List Bytes} : ¬ Differ entries first rest := by
  intro hdiffer
  have hsame := hdiffer.notSame
  rw [sameContent, hblobs] at hsame
  cases hsame

/-- A conflict record of a binary file is the outcome of the ladder only at its end. -/
theorem binary_eq_iff :
    (ladder path entries base fun _ _ =>
      .ok (.conflict (conflictRecord path entries base .diff3Conflict) [])) =
      .ok (.conflict (conflictRecord path entries base .diff3Conflict) []) ↔
      ∃ first rest, Differ entries first rest := by
  constructor
  · intro h
    rw [ladder] at h
    split_ifs at h with hall hany
    · cases h
    · simp [conflictRecord] at h
    · match hcontents : entries.mapM (·.content) with
      | none =>
        rw [hcontents] at h
        simp [conflictRecord] at h
      | some [] =>
        rw [hcontents] at h
        cases h
      | some (first :: rest) =>
        rw [hcontents] at h
        dsimp only at h
        split_ifs at h with hsame
        · cases h
        · exact ⟨first, rest, by simpa using hany, hcontents, by simpa using hsame⟩
  · rintro ⟨first, rest, hdiffer⟩
    exact hdiffer.ladder

/-- What a driver merged is the outcome of the ladder only for changes with contents. -/
theorem driver_eq_iff {strategy : PathMergeStrategy} {merged : Bytes}
    (hmerge : gitattrDriverMerge tools.toMergeTools base entries strategy = some merged)
    (hnone : entries.any (·.isDeletion) = false) :
    (ladder path entries base fun _ _ => .ok (.resolved (.upsert path merged))) =
      .ok (.resolved (.upsert path merged)) ↔
      ∃ first rest, entries.mapM (·.content) = some (first :: rest) ∧
        (sameContent entries first rest = true → merged = first) := by
  obtain ⟨e, he⟩ := List.exists_mem_of_ne_nil _ (ne_nil_of_gitattrDriverMerge hmerge)
  have hall : ¬ entries.all (·.isDeletion) = true := fun hall =>
    absurd (List.all_eq_true.mp hall e he) (List.any_eq_false.mp hnone e he)
  rw [ladder, if_neg hall, hnone, if_neg Bool.false_ne_true]
  match hcontents : entries.mapM (·.content) with
  | none => simp
  | some [] => simp
  | some (first :: rest) =>
    dsimp only
    split_ifs with hsame
    · constructor
      · intro h
        cases h
        exact ⟨merged, rest, rfl, fun _ => rfl⟩
      · rintro ⟨first', rest', heq, hmerged⟩
        cases heq
        rw [hmerged hsame]
    · exact iff_of_true rfl ⟨first, rest, rfl, fun h => absurd h hsame⟩

/-- The drivers that merge texts. -/
theorem withDriver_eq_iff (hast : tools.astMerge path = none) {strategy : PathMergeStrategy} :
    (ladder path entries base fun first rest =>
      match gitattrDriverMerge tools.toMergeTools base entries strategy with
      | some merged => .ok (.resolved (.upsert path merged))
      | none => resolveVariantsDetail tools path entries base
          ((entries.map (·.workspaceId)).zip (first :: rest))) =
      (match gitattrDriverMerge tools.toMergeTools base entries strategy with
      | some merged =>
        if entries.any (·.isDeletion) then resolveByAlgebraDetail tools path entries base
        else .ok (.resolved (.upsert path merged))
      | none => resolveByAlgebraDetail tools path entries base) ↔
      match gitattrDriverMerge tools.toMergeTools base entries strategy with
      | none => NoRetryHelps tools.toMergeTools entries base
      | some merged => entries.any (·.isDeletion) = true ∨
        ∃ first rest, entries.mapM (·.content) = some (first :: rest) ∧
          (sameContent entries first rest = true → merged = first) := by
  cases hmerge : gitattrDriverMerge tools.toMergeTools base entries strategy with
  | none => exact ladders_eq_iff hast
  | some merged =>
    dsimp only
    split_ifs with hany
    · refine iff_of_true ?_ (.inl hany)
      rw [resolveByAlgebraDetail_eq_ladder, ladder_congr_iff]
      intro first rest hdiffer
      rw [hdiffer.noDelete] at hany
      cases hany
    · rw [driver_eq_iff hmerge (Bool.eq_false_iff.mpr hany)]
      exact (or_iff_right hany).symm

/-- Both resolutions of a shared path are the same, with their atoms, exactly for these changes. -/
theorem withAst_eq_plain_iff (hast : tools.astMerge path = none) :
    resolveSharedPathWithAstDetail tools attrs path entries base =
      resolveSharedPathDetail tools attrs path entries base ↔
      Degenerates tools.toMergeTools attrs path entries base := by
  rw [resolveSharedPathWithAstDetail_eq_ladder, resolveSharedPathDetail, Degenerates]
  unfold differWithAst
  cases pathMergeStrategy path attrs with
  | diff3 => exact ladders_eq_iff hast
  | union => exact withDriver_eq_iff hast
  | ours => exact withDriver_eq_iff hast
  | binary =>
    dsimp only
    split_ifs with hblobs
    · refine iff_of_true ?_ (.inl hblobs)
      rw [resolveByAlgebraDetail_eq_ladder, ladder_congr_iff]
      exact fun first rest hdiffer => absurd hdiffer (allBlobsEqual_not_differ hblobs)
    · rw [binary_eq_iff]
      exact (or_iff_right hblobs).symm

end Shared

end Maw
