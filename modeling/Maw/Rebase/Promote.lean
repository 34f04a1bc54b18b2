import Maw.Rebase.DfClash

/-!
# Promotion of overlaps to conflicts

Before a patch of the workspace is applied, the paths that the epoch changed too are looked at:
rename destinations first, then file and directory clashes, then every remaining change. What
is settled here leaves the patch; what is contested stays in it.

## Main definitions

* `changeAction`, `overlapStep` — what the last pass does at one change.
* `promoteOverlapsToConflicts` — the three passes.
* `PromotedAt` — what the passes can make of one path.

## Main results

* `promoteOverlapsToConflicts_at` — the effect on one path and on its change.
-/

open PointwiseFold

namespace Maw

section Definitions

variable (ctx : ReplayContext) (workspaceId : WorkspaceId) (pairs : RenamePairs)

/-- What the last pass does at a change that is left in the patch. -/
def changeAction (change : FileChange) (epochMode : Option EntryMode) :
    Except RebaseError OverlapAction :=
  match change.kind with
  | .deleted =>
    if pairs.isSource change.path then pure .pass
    else
      match ctx.delta.lookup change.path with
      | none => pure .pass
      | some sides => deleteOverlap ctx workspaceId change sides
  | _ =>
    match change.blob with
    | none => pure .pass
    | some wsBlob =>
      if (pairs.sourceOf change.path).isSome then pure .pass
      else
        match ctx.delta.lookup change.path with
        | none => pure .pass
        | some sides => upsertOverlap ctx workspaceId change wsBlob sides epochMode

/-- One step of the last pass; settled paths are collected. -/
def overlapStep (state : ConflictTree × List Path) (change : FileChange) :
    Except RebaseError (ConflictTree × List Path) := do
  let epochMode := (state.1.clean.lookup change.path).map (·.mode)
  match ← changeAction ctx workspaceId pairs change epochMode with
  | .pass => pure state
  | .contest conflict => pure ((state.1.removeClean change.path).insertConflict conflict, state.2)
  | .resolve entry =>
    pure ((state.1.removeConflict change.path).insertClean change.path entry,
      state.2 ++ [change.path])

/-- The three passes over a patch: the tree they leave and what is left of the patch. -/
def promoteOverlapsToConflicts (tree : ConflictTree) (patch : PatchSet) :
    Except RebaseError (ConflictTree × PatchSet) := do
  let pairs := collectRenamePairs patch
  let renamed := applyRenameResolutions ctx tree patch pairs
  let clashed := promoteDfClashes ctx patch.workspaceId pairs renamed.1 renamed.2
  let result ← clashed.2.foldlM (overlapStep ctx patch.workspaceId pairs) (clashed.1, [])
  let changes := clashed.2.filter fun c => !(c.isUpsert && result.2.contains c.path)
  pure (result.1, { patch with changes := changes })

end Definitions

/-! ### The last pass at one path -/

section LastPass

open ConflictTree

variable {ctx : ReplayContext} {workspaceId : WorkspaceId} {pairs : RenamePairs}

/-- Why the last pass leaves a change alone. -/
inductive PassReason (ctx : ReplayContext) (pairs : RenamePairs) (change : FileChange) : Prop
  | blobless (kind : change.kind ≠ .deleted) (blob : change.blob = none)
  | dest {source : Path} (kind : change.kind ≠ .deleted)
      (pair : pairs.sourceOf change.path = some source)
  | source (kind : change.kind = .deleted) (pair : pairs.isSource change.path = true)
  | unchanged (dest : change.kind ≠ .deleted → pairs.sourceOf change.path = none)
      (source : change.kind = .deleted → pairs.isSource change.path = false)
      (delta : ctx.delta.lookup change.path = none)
  | same {wsBlob : GitOid} {refOld : Option GitOid} (kind : change.kind ≠ .deleted)
      (pair : pairs.sourceOf change.path = none) (blob : change.blob = some wsBlob)
      (delta : ctx.delta.lookup change.path = some (refOld, some wsBlob))
  | reverted {wsBlob : GitOid} {refNew : Option GitOid} (kind : change.kind ≠ .deleted)
      (pair : pairs.sourceOf change.path = none) (blob : change.blob = some wsBlob)
      (delta : ctx.delta.lookup change.path = some (some wsBlob, refNew))
      (hne : refNew ≠ some wsBlob)
  | bothDeleted {refOld : Option GitOid} (kind : change.kind = .deleted)
      (pair : pairs.isSource change.path = false)
      (delta : ctx.delta.lookup change.path = some (refOld, none))

/-- The cases of the last pass at one change. -/
inductive ActionCases (ctx : ReplayContext) (workspaceId : WorkspaceId) (pairs : RenamePairs)
    (change : FileChange) (epochMode : Option EntryMode) : OverlapAction → Prop
  | pass (reason : PassReason ctx pairs change) :
    ActionCases ctx workspaceId pairs change epochMode .pass
  | epochDeleted {wsBlob : GitOid} {refOld : Option GitOid} (kind : change.kind ≠ .deleted)
      (pair : pairs.sourceOf change.path = none) (blob : change.blob = some wsBlob)
      (delta : ctx.delta.lookup change.path = some (refOld, none)) (hne : refOld ≠ some wsBlob) :
    ActionCases ctx workspaceId pairs change epochMode
      (.contest (epochDeletedConflict ctx workspaceId change wsBlob refOld))
  | content {wsBlob epochBlob : GitOid} {refOld : Option GitOid} (kind : change.kind ≠ .deleted)
      (pair : pairs.sourceOf change.path = none) (blob : change.blob = some wsBlob)
      (delta : ctx.delta.lookup change.path = some (refOld, some epochBlob))
      (hnew : epochBlob ≠ wsBlob) (hold : refOld ≠ some wsBlob) :
    ActionCases ctx workspaceId pairs change epochMode
      (.contest (contentConflict ctx workspaceId change epochBlob wsBlob refOld))
  | merged {wsBlob epochBlob base : GitOid} {entry : MaterializedEntry}
      (kind : change.kind ≠ .deleted) (pair : pairs.sourceOf change.path = none)
      (blob : change.blob = some wsBlob)
      (delta : ctx.delta.lookup change.path = some (some base, some epochBlob))
      (hnew : epochBlob ≠ wsBlob) (hold : base ≠ wsBlob)
      (merge : threeWayText ctx change.path base epochBlob wsBlob = some entry.oid)
      (mode : entry.mode = (epochMode.or change.mode).getD .blob) :
    ActionCases ctx workspaceId pairs change epochMode (.resolve entry)
  | workspaceDeleted {epochNew : GitOid} {refOld : Option GitOid}
      (kind : change.kind = .deleted) (pair : pairs.isSource change.path = false)
      (delta : ctx.delta.lookup change.path = some (refOld, some epochNew)) :
    ActionCases ctx workspaceId pairs change epochMode
      (.contest (workspaceDeletedConflict ctx workspaceId change epochNew refOld))

private theorem changeAction_deleted {change : FileChange} {epochMode : Option EntryMode}
    {action : OverlapAction} (hkind : change.kind = .deleted)
    (h : changeAction ctx workspaceId pairs change epochMode = .ok action) :
    ActionCases ctx workspaceId pairs change epochMode action := by
  simp only [changeAction, hkind] at h
  split_ifs at h with hsource
  · rw [ExceptRun.pure_eq_ok] at h
    exact h ▸ .pass (.source hkind hsource)
  rw [Bool.not_eq_true] at hsource
  cases hdelta : ctx.delta.lookup change.path with
  | none =>
    simp only [hdelta, ExceptRun.pure_eq_ok] at h
    exact h ▸ .pass (.unchanged (fun hne => absurd hkind hne) (fun _ => hsource) hdelta)
  | some sides =>
    obtain ⟨refOld, refNew⟩ := sides
    simp only [hdelta] at h
    rcases deleteOverlap_spec h with ⟨hnew, rfl⟩ | ⟨epochNew, hnew, rfl⟩
    · obtain rfl : refNew = none := hnew
      exact .pass (.bothDeleted hkind hsource hdelta)
    · obtain rfl : refNew = some epochNew := hnew
      exact .workspaceDeleted hkind hsource hdelta

private theorem changeAction_upsert {change : FileChange} {epochMode : Option EntryMode}
    {action : OverlapAction} (hkind : change.kind ≠ .deleted)
    (h : changeAction ctx workspaceId pairs change epochMode = .ok action) :
    ActionCases ctx workspaceId pairs change epochMode action := by
  have hmatch : changeAction ctx workspaceId pairs change epochMode =
      match change.blob with
      | none => pure .pass
      | some wsBlob =>
        if (pairs.sourceOf change.path).isSome then pure .pass
        else
          match ctx.delta.lookup change.path with
          | none => pure .pass
          | some sides => upsertOverlap ctx workspaceId change wsBlob sides epochMode := by
    unfold changeAction
    cases hk : change.kind with
    | deleted => exact absurd hk hkind
    | added => rfl
    | modified => rfl
  rw [hmatch] at h
  cases hblob : change.blob with
  | none =>
    simp only [hblob, ExceptRun.pure_eq_ok] at h
    exact h ▸ .pass (.blobless hkind hblob)
  | some wsBlob =>
    simp only [hblob] at h
    split_ifs at h with hdest
    · obtain ⟨source, hsource⟩ := Option.isSome_iff_exists.mp hdest
      rw [ExceptRun.pure_eq_ok] at h
      exact h ▸ .pass (.dest hkind hsource)
    rw [Option.isSome_iff_ne_none, not_not] at hdest
    cases hdelta : ctx.delta.lookup change.path with
    | none =>
      simp only [hdelta, ExceptRun.pure_eq_ok] at h
      exact h ▸ .pass (.unchanged (fun _ => hdest) (fun hd => absurd hd hkind) hdelta)
    | some sides =>
      obtain ⟨refOld, refNew⟩ := sides
      simp only [hdelta] at h
      cases upsertOverlap_spec h with
      | same hnew =>
        obtain rfl : refNew = some wsBlob := hnew
        exact .pass (.same hkind hdest hblob hdelta)
      | reverted hnew hold =>
        obtain rfl : refOld = some wsBlob := hold
        exact .pass (.reverted hkind hdest hblob hdelta hnew)
      | epochDeleted hold hnew =>
        obtain rfl : refNew = none := hnew
        exact .epochDeleted hkind hdest hblob hdelta hold
      | merged hnew hne hold hbase hmerge hmode =>
        obtain rfl : refNew = _ := hnew
        obtain rfl : refOld = _ := hold
        exact .merged hkind hdest hblob hdelta hne hbase hmerge hmode
      | conflict hnew hne hold =>
        obtain rfl : refNew = _ := hnew
        exact .content hkind hdest hblob hdelta hne hold

theorem changeAction_cases {change : FileChange} {epochMode : Option EntryMode}
    {action : OverlapAction}
    (h : changeAction ctx workspaceId pairs change epochMode = .ok action) :
    ActionCases ctx workspaceId pairs change epochMode action := by
  by_cases hkind : change.kind = .deleted
  · exact changeAction_deleted hkind h
  · exact changeAction_upsert hkind h

theorem ActionCases.path_of_contest {change : FileChange} {epochMode : Option EntryMode}
    {conflict : Conflict}
    (h : ActionCases ctx workspaceId pairs change epochMode (.contest conflict)) :
    conflict.path = change.path := by
  cases h <;> rfl

/-- What the last pass does at the path of a change: to the slot, and to the note that the path
has been settled. -/
inductive OverlapAt (ctx : ReplayContext) (workspaceId : WorkspaceId) (pairs : RenamePairs)
    (change : FileChange) : Slot × Bool → Slot × Bool → Prop
  | pass {s : Slot} {settled : Bool} (reason : PassReason ctx pairs change) :
    OverlapAt ctx workspaceId pairs change (s, settled) (s, settled)
  | contest {s : Slot} {settled : Bool} {conflict : Conflict}
      (action : ActionCases ctx workspaceId pairs change (s.clean.map (·.mode))
        (.contest conflict)) :
    OverlapAt ctx workspaceId pairs change (s, settled) (⟨none, some conflict⟩, settled)
  | resolve {s : Slot} {settled : Bool} {entry : MaterializedEntry}
      (action : ActionCases ctx workspaceId pairs change (s.clean.map (·.mode))
        (.resolve entry)) :
    OverlapAt ctx workspaceId pairs change (s, settled) (⟨some entry, none⟩, true)

/-- The cell of a path in the state of the last pass. -/
def overlapCell (state : ConflictTree × List Path) (p : Path) : Slot × Bool :=
  (state.1.slot p, state.2.contains p)

private theorem overlapStep_cell {state state' : ConflictTree × List Path} {change : FileChange}
    (h : overlapStep ctx workspaceId pairs state change = .ok state') :
    OverlapAt ctx workspaceId pairs change (overlapCell state change.path)
        (overlapCell state' change.path) ∧
      ∀ q, change.path ≠ q → overlapCell state' q = overlapCell state q := by
  obtain ⟨tree, settled⟩ := state
  simp only [overlapStep, ExceptRun.bind_eq_ok] at h
  obtain ⟨action, haction, h⟩ := h
  have hcases := changeAction_cases haction
  cases action with
  | pass =>
    rw [ExceptRun.pure_eq_ok] at h
    subst h
    cases hcases with
    | pass reason => exact ⟨.pass reason, fun _ _ => rfl⟩
  | contest conflict =>
    rw [ExceptRun.pure_eq_ok] at h
    subst h
    have hpath := hcases.path_of_contest
    have hself : ((tree.removeClean change.path).insertConflict conflict).slot change.path =
        ⟨none, some conflict⟩ := by
      rw [slot_insertConflict, if_pos hpath.symm, slot_removeClean, if_pos rfl]
    refine ⟨?_, fun q hq => ?_⟩
    · simp only [overlapCell, hself]
      exact .contest hcases
    · simp only [overlapCell, slot_insertConflict, slot_removeClean, hpath, hq.symm, if_false]
  | resolve entry =>
    rw [ExceptRun.pure_eq_ok] at h
    subst h
    refine ⟨?_, fun q hq => ?_⟩
    · simp only [overlapCell, slot_insertClean, slot_removeConflict, if_true,
        List.contains_eq_mem, List.mem_append, List.mem_singleton, or_true, decide_true]
      exact .resolve hcases
    · simp only [overlapCell, slot_insertClean, slot_removeConflict, hq.symm, if_false,
        List.contains_eq_mem, List.mem_append, List.mem_singleton, or_false]

/-- The last pass does at a path what it does at the change of that path. -/
theorem foldlM_overlapStep_cell {changes : List FileChange} {state state' : ConflictTree × List Path}
    (hnodup : (changes.map (·.path)).Nodup)
    (h : changes.foldlM (overlapStep ctx workspaceId pairs) state = .ok state') (p : Path) :
    (itemAt (·.path) changes p).elim (overlapCell state' p = overlapCell state p) fun change =>
      OverlapAt ctx workspaceId pairs change (overlapCell state p) (overlapCell state' p) :=
  foldlM_view overlapCell (fun c : FileChange => c.path) (OverlapAt ctx workspaceId pairs)
    (fun _ _ _ hstep => (overlapStep_cell hstep).1) (fun _ _ _ hstep => (overlapStep_cell hstep).2)
    hnodup h p

end LastPass

/-! ### The three passes at one path -/

section Promoted

open ConflictTree

variable {ctx : ReplayContext} {patch : PatchSet} {tree : ConflictTree}

/-- A clash of some change of the patch removes the clean entry of the path. -/
def clearedAt (ctx : ReplayContext) (patch : PatchSet) (p : Path) : Bool :=
  patch.changes.any (dfRemoves ctx (collectRenamePairs patch) p)

/-- A clean entry as the clashes of the patch leave it. -/
def cleared (ctx : ReplayContext) (patch : PatchSet) (p : Path)
    (entry : Option MaterializedEntry) : Option MaterializedEntry :=
  if clearedAt ctx patch p then none else entry

/-- What the three passes make of one path: the slot after them, and the change of the path that
is left in the patch. -/
inductive PromotedAt (ctx : ReplayContext) (patch : PatchSet) (p : Path) (s : Slot) :
    Slot → Option FileChange → Prop
  | untouched (item : itemAt (·.path) patch.changes p = none) :
    PromotedAt ctx patch p s ⟨cleared ctx patch p s.clean, s.conflict⟩ none
  | renamed {change : FileChange} {res : RenameResolution}
      (item : itemAt (·.path) patch.changes p = some change)
      (plan : renameResolution ctx patch.workspaceId (collectRenamePairs patch) change =
        some res) :
    PromotedAt ctx patch p s ⟨cleared ctx patch p res.slot.clean, res.slot.conflict⟩ none
  | clash {change : FileChange} {wsBlob : GitOid} {claim : DfClaim}
      (item : itemAt (·.path) patch.changes p = some change)
      (found : dfClaimOf ctx (collectRenamePairs patch) change = some (wsBlob, claim)) :
    PromotedAt ctx patch p s ⟨cleared ctx patch p s.clean,
      some (dfConflict ctx patch.workspaceId change wsBlob claim)⟩ none
  | passed {change : FileChange} (item : itemAt (·.path) patch.changes p = some change)
      (plan : renameResolution ctx patch.workspaceId (collectRenamePairs patch) change = none)
      (found : dfClaimOf ctx (collectRenamePairs patch) change = none)
      (reason : PassReason ctx (collectRenamePairs patch) change) :
    PromotedAt ctx patch p s ⟨cleared ctx patch p s.clean, s.conflict⟩ (some change)
  | contested {change : FileChange} {conflict : Conflict}
      (item : itemAt (·.path) patch.changes p = some change)
      (found : dfClaimOf ctx (collectRenamePairs patch) change = none)
      (action : ActionCases ctx patch.workspaceId (collectRenamePairs patch) change
        ((cleared ctx patch p s.clean).map (·.mode)) (.contest conflict)) :
    PromotedAt ctx patch p s ⟨none, some conflict⟩ (some change)
  | resolved {change : FileChange} {entry : MaterializedEntry}
      (item : itemAt (·.path) patch.changes p = some change)
      (found : dfClaimOf ctx (collectRenamePairs patch) change = none)
      (action : ActionCases ctx patch.workspaceId (collectRenamePairs patch) change
        ((cleared ctx patch p s.clean).map (·.mode)) (.resolve entry)) :
    PromotedAt ctx patch p s ⟨some entry, none⟩ none

/-- A change that clashes is no rename destination, so there is no plan for it. -/
theorem renameResolution_of_dfClaimOf {workspaceId : WorkspaceId} {pairs : RenamePairs}
    {change : FileChange} {found : GitOid × DfClaim}
    (h : dfClaimOf ctx pairs change = some found) :
    renameResolution ctx workspaceId pairs change = none := by
  obtain ⟨wsBlob, claim⟩ := found
  obtain ⟨-, hdest, -, -⟩ := dfClaimOf_eq_some.mp h
  cases hplan : renameResolution ctx workspaceId pairs change with
  | none => rfl
  | some res =>
    obtain ⟨-, _, source, _, _, -, hsource, -⟩ := renameResolution_eq_some.mp hplan
    simp [hdest] at hsource

variable (hnodup : (patch.changes.map (·.path)).Nodup)

include hnodup in
private theorem planAt_of_mem {change : FileChange} (h : change ∈ patch.changes)
    (pairs : RenamePairs) :
    planAt ctx patch pairs change.path = renameResolution ctx patch.workspaceId pairs change := by
  rw [planAt, itemAt_of_mem (fun c : FileChange => c.path) hnodup h, Option.bind_some]

include hnodup in
private theorem any_dfRemoves_unplanned (p : Path) :
    (patch.changes.filter fun c =>
        (planAt ctx patch (collectRenamePairs patch) c.path).isNone).any
      (dfRemoves ctx (collectRenamePairs patch) p) = clearedAt ctx patch p := by
  rw [clearedAt, List.any_filter, Bool.eq_iff_iff, List.any_eq_true, List.any_eq_true]
  refine exists_congr fun c => and_congr_right fun hc => ?_
  rw [Bool.and_eq_true, and_iff_right_of_imp]
  intro hremoves
  obtain ⟨wsBlob, claim, hclaim, -⟩ := dfRemoves_eq_true.mp hremoves
  rw [planAt_of_mem hnodup hc, renameResolution_of_dfClaimOf hclaim, Option.isNone_none]

/-- The tree and the changes after the first two passes. -/
private def afterClashes (ctx : ReplayContext) (tree : ConflictTree) (patch : PatchSet) :
    ConflictTree × List FileChange :=
  let pairs := collectRenamePairs patch
  let renamed := applyRenameResolutions ctx tree patch pairs
  promoteDfClashes ctx patch.workspaceId pairs renamed.1 renamed.2

variable (ctx tree) in
include hnodup in
private theorem afterClashes_changes :
    (afterClashes ctx tree patch).2 = patch.changes.filter fun c =>
      (renameResolution ctx patch.workspaceId (collectRenamePairs patch) c).isNone &&
        (dfClaimOf ctx (collectRenamePairs patch) c).isNone := by
  have hrenamed := applyRenameResolutions_changes ctx tree (collectRenamePairs patch) hnodup
  have hnodup' : ((applyRenameResolutions ctx tree patch (collectRenamePairs patch)).2.map
      (·.path)).Nodup := hrenamed ▸ nodup_map_filter hnodup _
  rw [afterClashes, promoteDfClashes_changes hnodup', hrenamed, List.filter_filter]
  refine List.filter_congr fun c hc => ?_
  rw [planAt_of_mem hnodup hc, Bool.and_comm]

variable (ctx tree) in
include hnodup in
private theorem afterClashes_slot (p : Path) :
    (afterClashes ctx tree patch).1.slot p =
      let pairs := collectRenamePairs patch
      let s := (planAt ctx patch pairs p).elim (tree.slot p) RenameResolution.slot
      ⟨cleared ctx patch p s.clean, (((itemAt (·.path) patch.changes p).filter fun c =>
        (planAt ctx patch pairs c.path).isNone).bind
          (dfConflictOf ctx patch.workspaceId pairs)).or s.conflict⟩ := by
  have hrenamed := applyRenameResolutions_changes ctx tree (collectRenamePairs patch) hnodup
  have hslot := applyRenameResolutions_slot ctx tree (collectRenamePairs patch) hnodup p
  have hnodup' : ((applyRenameResolutions ctx tree patch (collectRenamePairs patch)).2.map
      (·.path)).Nodup := hrenamed ▸ nodup_map_filter hnodup _
  have hclean := congrArg Slot.clean hslot
  have hconflict := congrArg Slot.conflict hslot
  rw [slot_clean] at hclean
  rw [slot_conflict] at hconflict
  simp only [afterClashes, slot, promoteDfClashes_clean hnodup', promoteDfClashes_conflict hnodup',
    hclean, hconflict, cleared]
  rw [hrenamed, any_dfRemoves_unplanned hnodup, itemAt_filter hnodup]

variable {tree' : ConflictTree} {patch' : PatchSet}

private theorem promoteOverlapsToConflicts_eq_ok
    (h : promoteOverlapsToConflicts ctx tree patch = .ok (tree', patch')) :
    ∃ settled, (afterClashes ctx tree patch).2.foldlM
        (overlapStep ctx patch.workspaceId (collectRenamePairs patch))
        ((afterClashes ctx tree patch).1, []) = .ok (tree', settled) ∧
      patch' = { patch with changes := (afterClashes ctx tree patch).2.filter fun c =>
        !(c.isUpsert && settled.contains c.path) } := by
  simp only [promoteOverlapsToConflicts, ExceptRun.bind_eq_ok] at h
  obtain ⟨⟨tree₁, settled⟩, hrun, h⟩ := h
  rw [ExceptRun.pure_eq_ok, Prod.mk.injEq] at h
  obtain ⟨rfl, rfl⟩ := h
  exact ⟨settled, hrun, rfl⟩

include hnodup in
private theorem afterClashes_nodup :
    ((afterClashes ctx tree patch).2.map (·.path)).Nodup :=
  afterClashes_changes ctx tree hnodup ▸ nodup_map_filter hnodup _

include hnodup in
/-- The passes leave at a path what its own change and the clashes of others make of it. -/
theorem promoteOverlapsToConflicts_at
    (h : promoteOverlapsToConflicts ctx tree patch = .ok (tree', patch')) (p : Path) :
    PromotedAt ctx patch p (tree.slot p) (tree'.slot p) (itemAt (·.path) patch'.changes p) := by
  obtain ⟨settled, hrun, rfl⟩ := promoteOverlapsToConflicts_eq_ok h
  have hcell := foldlM_overlapStep_cell (afterClashes_nodup hnodup) hrun p
  have hslot := afterClashes_slot ctx tree hnodup p
  rw [itemAt_filter (afterClashes_nodup hnodup)]
  rw [afterClashes_changes ctx tree hnodup, itemAt_filter hnodup] at hcell
  rw [afterClashes_changes ctx tree hnodup, itemAt_filter hnodup]
  cases hitem : itemAt (·.path) patch.changes p with
  | none =>
    simp only [hitem, planAt, Option.bind_none, Option.elim_none, Option.filter_none,
      Option.none_or] at hslot hcell ⊢
    obtain ⟨hs, -⟩ := Prod.mk.inj hcell
    rw [hs, hslot]
    exact .untouched hitem
  | some change =>
    have hmem := mem_of_itemAt hitem
    have hpath : change.path = p := key_of_itemAt hitem
    have hplanAt : planAt ctx patch (collectRenamePairs patch) p =
        renameResolution ctx patch.workspaceId (collectRenamePairs patch) change :=
      hpath ▸ planAt_of_mem hnodup hmem _
    simp only [hitem, Option.filter_some, hplanAt, hpath] at hslot hcell ⊢
    cases hplan : renameResolution ctx patch.workspaceId (collectRenamePairs patch) change with
    | some res =>
      simp only [hplan, Option.isNone_some, Bool.false_and, Bool.false_eq_true, if_false,
        Option.elim_none, Option.elim_some, Option.bind_none, Option.none_or,
        Option.filter_none] at hslot hcell ⊢
      obtain ⟨hs, -⟩ := Prod.mk.inj hcell
      rw [hs, hslot]
      exact .renamed hitem hplan
    | none =>
      cases hfound : dfClaimOf ctx (collectRenamePairs patch) change with
      | some found =>
        obtain ⟨wsBlob, claim⟩ := found
        simp only [hplan, hfound, Option.isNone_none, Option.isNone_some, Bool.and_false,
          Bool.false_eq_true, if_false, if_true, Option.elim_none, Option.bind_some, dfConflictOf,
          Option.map_some, Option.some_or, Option.filter_none] at hslot hcell ⊢
        obtain ⟨hs, -⟩ := Prod.mk.inj hcell
        rw [hs, hslot]
        exact .clash hitem hfound
      | none =>
        simp only [hplan, hfound, Option.isNone_none, Bool.and_self, if_true, Option.elim_none,
          Option.elim_some, Option.bind_some, dfConflictOf, Option.map_none, Option.none_or,
          Option.filter_some] at hslot hcell ⊢
        have hstart : overlapCell ((afterClashes ctx tree patch).1, []) p =
            (⟨cleared ctx patch p (tree.slot p).clean, (tree.slot p).conflict⟩, false) := by
          rw [overlapCell, hslot]
          rfl
        rw [hstart] at hcell
        generalize hend : overlapCell (tree', settled) p = last at hcell
        cases hcell with
        | pass reason =>
          obtain ⟨hs, hsettled⟩ := Prod.mk.inj hend
          rw [hs, hpath, hsettled, Bool.and_false, Bool.not_false, if_pos rfl]
          exact .passed hitem hplan hfound reason
        | contest action =>
          obtain ⟨hs, hsettled⟩ := Prod.mk.inj hend
          rw [hs, hpath, hsettled, Bool.and_false, Bool.not_false, if_pos rfl]
          exact .contested hitem hfound action
        | resolve action =>
          obtain ⟨hs, hsettled⟩ := Prod.mk.inj hend
          have hupsert : change.isUpsert = true := by
            cases action with
            | merged kind => exact (FileChange.isUpsert_iff change).mpr kind
          rw [hs, hpath, hsettled, hupsert, Bool.and_self, Bool.not_true, if_neg Bool.false_ne_true]
          exact .resolved hitem hfound action

include hnodup in
theorem promoteOverlapsToConflicts_nodup
    (h : promoteOverlapsToConflicts ctx tree patch = .ok (tree', patch')) :
    (patch'.changes.map (·.path)).Nodup := by
  obtain ⟨settled, -, rfl⟩ := promoteOverlapsToConflicts_eq_ok h
  exact nodup_map_filter (afterClashes_nodup hnodup) _

end Promoted

end Maw
