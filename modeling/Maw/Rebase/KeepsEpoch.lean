import Maw.Rebase.Replay

/-!
# What a step keeps of the epoch

One commit of the workspace is replayed on the tree of the new epoch. A path that the epoch
changed should end in conflict, or with the epoch's blob, or with the clean text merge, or moved
by a rename of the workspace to a place that holds one of these. The step does this exactly when
the commit does not write the epoch's old blob, does not rename over the path, and does not
delete it in a pair that is no rename.

## Main definitions

* `EpochChanged`, `EpochKept` — what is asked of a path.
* `SafeChange` — the changes of a commit that do what is asked.

## Main results

* `replayStep_keepsEpoch_iff` — the step keeps every change of the epoch exactly when each change
  of the commit is safe or lies in a file and directory clash.
-/

open PointwiseFold

namespace Maw

open ConflictTree

/-- The epoch changed or added the blob of a path. -/
def EpochChanged (oldEpoch newEpoch : GitTree) (p : Path) (epochBlob : GitOid) : Prop :=
  blobAt newEpoch p = some epochBlob ∧ blobAt oldEpoch p ≠ some epochBlob

/-- The old epoch's blob of a changed path, or of the source of the epoch's rename to it. -/
def EpochDelta.oldSide (delta : EpochDelta) (p : Path) : Option GitOid :=
  (delta.lookup p).bind Prod.fst

/-- The conflict is a file and directory clash with the epoch's entry at `q` on its other side. -/
def Conflict.ClashesWith : Conflict → Path → Prop
  | .modifyDelete p _ _ _ _ _ (some root), q => q = root ∨ p = root ∧ root.Above q
  | _, _ => False

/-- The epoch's entry at `q` is on one side of a recorded file and directory clash. -/
def InClash (state : ConflictTree) (q : Path) : Prop :=
  ∃ p c, state.conflicts.lookup p = some c ∧ c.ClashesWith q

/-- A blob at `q` that carries the epoch's change from `oldBlob` to `epochBlob`: the epoch's, or
the clean text merge with the workspace's. -/
def CarriesEpoch (ctx : ReplayContext) (q : Path) (oldBlob : Option GitOid) (epochBlob : GitOid)
    (wsBlob : Option GitOid) (blob : GitOid) : Prop :=
  blob = epochBlob ∨ ∃ base ws, oldBlob = some base ∧ wsBlob = some ws ∧
    threeWayText ctx q base epochBlob ws = some blob

/-- The path `q` is in conflict or settled with a blob that carries the epoch's change. -/
def HoldsEpoch (ctx : ReplayContext) (state : ConflictTree) (q : Path) (oldBlob : Option GitOid)
    (epochBlob : GitOid) (wsBlob : Option GitOid) : Prop :=
  (state.slot q).conflict ≠ none ∨ InClash state q ∨
    ∃ e, (state.slot q).clean = some e ∧ CarriesEpoch ctx q oldBlob epochBlob wsBlob e.oid

/-- The commit renames `p` to a path that the old epoch did not have. -/
def IsRename (oldEpoch : GitTree) (patch : PatchSet) (p q : Path) : Prop :=
  IsRenamePair patch.changes p q ∧ oldEpoch.lookup q = none

/-- What is asked of a path that the epoch changed: it holds the epoch's change, or it is gone
and the path that the workspace renamed it to does. -/
def EpochKept (ctx : ReplayContext) (oldEpoch wsTree : GitTree) (patch : PatchSet)
    (state : ConflictTree) (p : Path) (epochBlob : GitOid) : Prop :=
  HoldsEpoch ctx state p (ctx.delta.oldSide p) epochBlob (blobAt wsTree p) ∨
    (state.slot p).clean = none ∧ ∃ q, IsRename oldEpoch patch p q ∧
      HoldsEpoch ctx state q (ctx.delta.oldSide p) epochBlob (blobAt wsTree q)

/-- When a change of a path that the epoch changed to `epochBlob` keeps the epoch's change. -/
structure SafeChange (ctx : ReplayContext) (oldEpoch wsTree : GitTree) (patch : PatchSet)
    (epochBlob : GitOid) (change : FileChange) : Prop where
  /-- A path that is not renamed to must not be written with the old blob. -/
  written : change.kind ≠ .deleted → (∀ f, ¬ IsRenamePair patch.changes f change.path) →
    ∀ ws, change.blob = some ws → ctx.delta.oldSide change.path = some ws →
      CarriesEpoch ctx change.path (ctx.delta.oldSide change.path) epochBlob
        (blobAt wsTree change.path) ws
  /-- A path must not be renamed to from one that the epoch left alone or deleted. -/
  overwritten : ∀ f, IsRenamePair patch.changes f change.path → ctx.delta.liveAt f = none →
    ∀ ws, change.blob = some ws →
      CarriesEpoch ctx change.path (ctx.delta.oldSide change.path) epochBlob
        (blobAt wsTree change.path) ws
  /-- Nor from one whose unedited content the epoch changed. -/
  followed : ∀ f ws new, IsRenamePair patch.changes f change.path → change.blob = some ws →
    ctx.delta.lookup f = some (some ws, some new) →
      CarriesEpoch ctx change.path (ctx.delta.oldSide change.path) epochBlob
        (blobAt wsTree change.path) new
  /-- A deletion paired with a modification must be a rename. -/
  moved : ∀ q, IsRenamePair patch.changes change.path q → oldEpoch.lookup q = none

/-! ### Clashes in the tree after a step -/

section Clashes

variable {ctx : ReplayContext} {patch : PatchSet} {state state' : ConflictTree}

theorem clashesWith_dfConflict {workspaceId : WorkspaceId} {change : FileChange} {ws : GitOid}
    {claim : DfClaim} {pairs : RenamePairs}
    (h : dfClaimOf ctx pairs change = some (ws, claim)) (q : Path) :
    (dfConflict ctx workspaceId change ws claim).ClashesWith q ↔
      claim.removes change.path q = true := by
  cases claim with
  | directory childBlob => simp [dfConflict, Conflict.ClashesWith, DfClaim.removes]
  | file a blob =>
    have habove : a.Above change.path := (dfClaim_eq_file (dfClaimOf_eq_some.mp h).2.2.2).1
    simp [dfConflict, Conflict.ClashesWith, DfClaim.removes, habove.ne.symm]

/-- From a tree without conflicts a step records exactly the clashes of its patch. -/
theorem inClash_iff (hnodup : (patch.changes.map (·.path)).Nodup)
    (hsettled : ∀ p, (state.slot p).conflict = none)
    (hat : ∀ p, StepAt ctx patch p (state.slot p) (state'.slot p)) (q : Path) :
    InClash state' q ↔ clearedAt ctx patch q = true := by
  simp only [clearedAt, List.any_eq_true, dfRemoves_eq_true]
  constructor
  · rintro ⟨p, c, hc, hclash⟩
    have hp := hat p
    generalize hs : state'.slot p = s' at hp
    have hconflict : s'.conflict = some c := hs ▸ hc
    have hne : (state.slot p).conflict ≠ some c := by simp [hsettled p]
    cases hp with
    | untouched item => exact absurd hconflict hne
    | renamed item plan =>
      obtain ⟨-, ws, source, refOld, epochNew, -, -, -, rfl⟩ := renameResolution_eq_some.mp plan
      split_ifs at hconflict
      · cases hconflict
      · cases hconflict
        exact hclash.elim
    | clash item found =>
      cases hconflict
      exact ⟨_, mem_of_itemAt item, _, _, found, (clashesWith_dfConflict found q).mp hclash⟩
    | contested item found action =>
      cases hconflict
      cases action <;> exact hclash.elim
    | resolved => cases hconflict
    | applied item plan found reason settled hslot =>
      rw [settledSlot_conflict hslot] at hconflict
      cases hconflict
    | kept item plan found reason contested =>
      rw [hsettled p] at contested
      cases contested
  · rintro ⟨change, hchange, ws, claim, hclaim, hremoves⟩
    have hslot := (hat change.path).of_clash hnodup hchange hclaim
    refine ⟨change.path, _, congrArg Slot.conflict hslot, ?_⟩
    exact (clashesWith_dfConflict hclaim q).mpr hremoves

end Clashes

/-! ### One path -/

section OnePath

variable {ctx : ReplayContext} {oldEpoch newEpoch wsTree : GitTree} {patch : PatchSet}
  {state' : ConflictTree} {p : Path} {epochBlob : GitOid}

theorem delta_of_epochChanged (hdelta : IsEpochDelta oldEpoch newEpoch ctx.delta)
    (hchanged : EpochChanged oldEpoch newEpoch p epochBlob) :
    ctx.delta.lookup p = some (ctx.delta.oldSide p, some epochBlob) := by
  obtain ⟨hnew, hold⟩ := hchanged
  have hne : oldEpoch.lookup p ≠ newEpoch.lookup p := fun he => hold (by rw [blobAt, he]; exact hnew)
  obtain ⟨refOld, hlookup⟩ := hdelta.lookup_of_ne hne
  have hside : (newEpoch.lookup p).map (·.oid) = some epochBlob := hnew
  rw [EpochDelta.oldSide, hlookup, hside]
  rfl

theorem epochKept_of_conflict {c : Conflict} (h : (state'.slot p).conflict = some c) :
    EpochKept ctx oldEpoch wsTree patch state' p epochBlob :=
  .inl (.inl (by simp [h]))

/-- A settled path outside every clash keeps the epoch's change exactly when its blob does. -/
theorem epochKept_of_clean {e : MaterializedEntry} (hslot : state'.slot p = ⟨some e, none⟩)
    (hclash : ¬ InClash state' p) :
    EpochKept ctx oldEpoch wsTree patch state' p epochBlob ↔
      CarriesEpoch ctx p (ctx.delta.oldSide p) epochBlob (blobAt wsTree p) e.oid := by
  constructor
  · rintro ((h | h | ⟨e', he', h⟩) | ⟨h, -⟩)
    · exact absurd (congrArg Slot.conflict hslot) h
    · exact absurd h hclash
    · obtain rfl : e = e' := Option.some.inj ((congrArg Slot.clean hslot).symm.trans he')
      exact h
    · exact absurd h (by rw [hslot]; exact Option.some_ne_none e)
  · exact fun h => .inl (.inr (.inr ⟨e, congrArg Slot.clean hslot, h⟩))

variable (hpatch : IsPatch ctx oldEpoch wsTree patch)
  (hat : ∀ p, StepAt ctx patch p ⟨newEpoch.lookup p, none⟩ (state'.slot p))
  {change : FileChange} (hmem : change ∈ patch.changes)

/-- A change outside every pair is safe unless it writes the old blob. -/
theorem safeChange_of_no_pair (hdest : ∀ f, ¬ IsRenamePair patch.changes f change.path)
    (hsource : ∀ q, ¬ IsRenamePair patch.changes change.path q)
    (hwritten : change.kind ≠ .deleted → ∀ ws, change.blob = some ws →
      ctx.delta.oldSide change.path = some ws →
      CarriesEpoch ctx change.path (ctx.delta.oldSide change.path) epochBlob
        (blobAt wsTree change.path) ws) :
    SafeChange ctx oldEpoch wsTree patch epochBlob change where
  written hkind _ := hwritten hkind
  overwritten f hf := absurd hf (hdest f)
  followed f _ _ hf := absurd hf (hdest f)
  moved q hq := absurd hq (hsource q)

include hpatch hat in
theorem inClash_iff_of_seed (q : Path) : InClash state' q ↔ clearedAt ctx patch q = true := by
  have hseed := slot_seed newEpoch patch.epoch
  exact inClash_iff hpatch.nodup (fun r => congrArg Slot.conflict (hseed r))
    (fun r => (hseed r).symm ▸ hat r) q

include hpatch hmem in
theorem no_source_of_upsert (hkind : change.kind ≠ .deleted) (q : Path) :
    ¬ IsRenamePair patch.changes change.path q := fun h =>
  hkind (h.kind_of_source hpatch.nodup hmem rfl)

include hpatch hmem in
theorem no_dest_of_deleted (hkind : change.kind = .deleted) (f : Path) :
    ¬ IsRenamePair patch.changes f change.path := fun h => by
  simp [h.kind_of_dest hpatch.nodup hmem rfl] at hkind

include hpatch in
theorem no_dest_of_sourceOf (h : (collectRenamePairs patch).sourceOf p = none) (f : Path) :
    ¬ IsRenamePair patch.changes f p := fun hf => by
  simp [(sourceOf_eq_some hpatch.nodup).mpr hf] at h

theorem no_source_of_isSource (h : (collectRenamePairs patch).isSource p = false) (q : Path) :
    ¬ IsRenamePair patch.changes p q := fun hq => by
  simp [isSource_iff.mpr ⟨q, hq⟩] at h

include hpatch hmem in
theorem blob_of_upsert (hkind : change.kind ≠ .deleted) : ∃ ws, change.blob = some ws := by
  cases hpatch.reflects change hmem with
  | deleted kind => exact absurd kind hkind
  | added _ _ _ blob | modified _ _ _ _ blob | renamedTo _ _ _ _ _ blob => exact ⟨_, blob⟩

include hpatch hmem in
/-- The workspace's blob at an added or modified path is that of the change. -/
theorem blobAt_of_change {ws : GitOid} (hblob : change.blob = some ws) :
    blobAt wsTree change.path = some ws := by
  cases hpatch.reflects change hmem with
  | added _ _ hnew blob | modified _ _ hnew _ blob | renamedTo _ _ hnew _ _ blob =>
    rw [blobAt, hnew, ← hblob, blob]
    rfl
  | deleted _ _ _ blob => simp [hblob] at blob

include hpatch hat in
/-- The destination of a pair whose source the epoch changed holds the epoch's change. -/
theorem holdsEpoch_of_pair {q : Path} (hside : ctx.delta.lookup p =
    some (ctx.delta.oldSide p, some epochBlob)) (hpair : IsRenamePair patch.changes p q)
    (wsBlob : Option GitOid) :
    HoldsEpoch ctx state' q (ctx.delta.oldSide p) epochBlob wsBlob := by
  obtain ⟨-, -, m, hm, -, -, rfl, hkind, -⟩ := hpair.changes
  obtain ⟨ws, hblob⟩ := blob_of_upsert hpatch hm (by simp [hkind])
  have hplan : renameResolution ctx patch.workspaceId (collectRenamePairs patch) m = some _ :=
    renameResolution_eq_some.mpr ⟨hkind, ws, p, ctx.delta.oldSide p, epochBlob, hblob,
      (sourceOf_eq_some hpatch.nodup).mpr hpair, hside, rfl⟩
  have hslot := (hat m.path).of_plan hpatch.nodup hm hplan
  by_cases hold : ctx.delta.oldSide p = some ws
  · rw [if_pos hold] at hslot
    by_cases hclear : clearedAt ctx patch m.path = true
    · exact .inr (.inl ((inClash_iff_of_seed hpatch hat m.path).mpr hclear))
    · refine .inr (.inr ⟨⟨m.mode.getD .blob, epochBlob⟩, ?_, .inl rfl⟩)
      rw [hslot, cleared, if_neg hclear]
      rfl
  · rw [if_neg hold] at hslot
    exact .inl (by rw [hslot]; exact Option.some_ne_none _)

section Change

variable (hside : ctx.delta.lookup change.path =
    some (ctx.delta.oldSide change.path, some epochBlob))
  (hclash : ¬ InClash state' change.path)

include hpatch hmem hclash in
private theorem epochKept_iff_of_plan {res : RenameResolution}
    (hclear : clearedAt ctx patch change.path = false)
    (plan : renameResolution ctx patch.workspaceId (collectRenamePairs patch) change = some res)
    (hs : state'.slot change.path =
      ⟨cleared ctx patch change.path res.slot.clean, res.slot.conflict⟩) :
    EpochKept ctx oldEpoch wsTree patch state' change.path epochBlob ↔
      SafeChange ctx oldEpoch wsTree patch epochBlob change := by
  obtain ⟨hkind, ws, f, refOld, new, hblob, hsource, hdelta, rfl⟩ :=
    renameResolution_eq_some.mp plan
  have hpair := (sourceOf_eq_some hpatch.nodup).mp hsource
  have hlive : ctx.delta.liveAt f = some new := by simp [EpochDelta.liveAt, hdelta]
  have hsafe (hfollowed : refOld = some ws → CarriesEpoch ctx change.path
      (ctx.delta.oldSide change.path) epochBlob (blobAt wsTree change.path) new) :
      SafeChange ctx oldEpoch wsTree patch epochBlob change := {
    written := fun _ hno => absurd hpair (hno f)
    overwritten := fun f' hf' hdead => by
      rw [IsRenamePair.source_unique hpatch.nodup hf' hpair, hlive] at hdead
      cases hdead
    followed := fun f' ws' new' hf' hblob' hdelta' => by
      obtain rfl := IsRenamePair.source_unique hpatch.nodup hf' hpair
      rw [hdelta] at hdelta'
      obtain ⟨rfl, hnew⟩ := Prod.mk.inj (Option.some.inj hdelta')
      rw [← Option.some.inj hnew]
      exact hfollowed (hblob'.symm.trans hblob)
    moved := fun q hq => absurd hq (no_source_of_upsert hpatch hmem (by simp [hkind]) q) }
  by_cases hold : refOld = some ws
  · rw [if_pos hold] at hs
    rw [cleared, hclear, if_neg Bool.false_ne_true] at hs
    rw [epochKept_of_clean hs hclash]
    exact ⟨fun h => hsafe fun _ => h, fun h => h.followed f ws new hpair hblob (hold ▸ hdelta)⟩
  · rw [if_neg hold] at hs
    exact iff_of_true (epochKept_of_conflict (congrArg Slot.conflict hs))
      (hsafe fun h => absurd h hold)

include hpatch hat hmem hside hclash in
private theorem epochKept_iff_of_applied {s' : Slot}
    (plan : renameResolution ctx patch.workspaceId (collectRenamePairs patch) change = none)
    (reason : PassReason ctx (collectRenamePairs patch) change)
    {entry : Option MaterializedEntry} (hslot : settledSlot change entry = .ok s')
    (hs : state'.slot change.path = s') :
    EpochKept ctx oldEpoch wsTree patch state' change.path epochBlob ↔
      SafeChange ctx oldEpoch wsTree patch epochBlob change := by
  cases reason with
  | blobless kind blob =>
    obtain ⟨ws, hblob⟩ := blob_of_upsert hpatch hmem kind
    simp [hblob] at blob
  | @dest f kind pair =>
    have hpair := (sourceOf_eq_some hpatch.nodup).mp pair
    obtain ⟨ws, mode, hblob, rfl, -⟩ := settledSlot_of_upsert kind hslot
    have hdead : ctx.delta.liveAt f = none := by
      by_contra hlive
      obtain ⟨new, hnew⟩ := Option.ne_none_iff_exists'.mp hlive
      obtain ⟨⟨refOld, refNew⟩, hdelta, rfl⟩ := Option.bind_eq_some_iff.mp hnew
      rw [renameResolution_eq_some.mpr ⟨hpair.kind_of_dest hpatch.nodup hmem rfl, ws, f, refOld,
        new, hblob, pair, hdelta, rfl⟩] at plan
      cases plan
    rw [epochKept_of_clean hs hclash]
    refine ⟨fun h => ?_, fun h => h.overwritten f hpair hdead ws hblob⟩
    exact {
      written := fun _ hno => absurd hpair (hno f)
      overwritten := fun _ _ _ ws' hblob' => by
        rw [← Option.some.inj (hblob.symm.trans hblob')]
        exact h
      followed := fun f' ws' new' hf' _ hdelta' => by
        rw [IsRenamePair.source_unique hpatch.nodup hf' hpair] at hdelta'
        simp [EpochDelta.liveAt, hdelta'] at hdead
      moved := fun q hq => absurd hq (no_source_of_upsert hpatch hmem kind q) }
  | source kind pair =>
    obtain ⟨q, hpair⟩ := isSource_iff.mp pair
    rw [settledSlot_of_deleted kind hslot] at hs
    constructor
    · rintro ((h | h | ⟨e, he, -⟩) | ⟨-, q', ⟨hpair', hnone⟩, -⟩)
      · exact absurd (congrArg Slot.conflict hs) h
      · exact absurd h hclash
      · cases (congrArg Slot.clean hs).symm.trans he
      · exact {
          written := fun hne => absurd kind hne
          overwritten := fun f hf => absurd hf (no_dest_of_deleted hpatch hmem kind f)
          followed := fun f _ _ hf => absurd hf (no_dest_of_deleted hpatch hmem kind f)
          moved := fun q'' hq'' => IsRenamePair.dest_unique hpatch.nodup hpair' hq'' ▸ hnone }
    · exact fun h => .inr ⟨congrArg Slot.clean hs, q, ⟨hpair, h.moved q hpair⟩,
        holdsEpoch_of_pair hpatch hat hside hpair _⟩
  | unchanged _ _ delta => simp [hside] at delta
  | same kind pair blob delta =>
    obtain ⟨ws, mode, hblob, rfl, -⟩ := settledSlot_of_upsert kind hslot
    have hws : ws = epochBlob := by
      rw [hside] at delta
      simp only [Option.some.injEq, Prod.mk.injEq] at delta
      rw [← Option.some.inj (blob.symm.trans hblob), delta.2]
    rw [epochKept_of_clean hs hclash]
    refine iff_of_true (.inl hws) (safeChange_of_no_pair (no_dest_of_sourceOf hpatch pair)
      (no_source_of_upsert hpatch hmem kind) fun _ ws' hblob' _ => .inl ?_)
    rw [← Option.some.inj (hblob.symm.trans hblob'), hws]
  | reverted kind pair blob delta =>
    obtain ⟨ws, mode, hblob, rfl, -⟩ := settledSlot_of_upsert kind hslot
    have hold : ctx.delta.oldSide change.path = some ws := by
      rw [EpochDelta.oldSide, delta, ← Option.some.inj (blob.symm.trans hblob)]
      rfl
    have hno := no_dest_of_sourceOf hpatch pair
    rw [epochKept_of_clean hs hclash]
    refine ⟨fun h => ?_, fun h => h.written kind hno ws hblob hold⟩
    refine safeChange_of_no_pair hno (no_source_of_upsert hpatch hmem kind) ?_
    intro _ ws' hblob' _
    rw [← Option.some.inj (hblob.symm.trans hblob')]
    exact h
  | bothDeleted _ _ delta => simp [hside] at delta

include hpatch hat hmem hside hclash in
/-- Outside the clashes of the patch, a changed path keeps the epoch's change exactly when the
change of the workspace is safe. -/
theorem epochKept_iff_safeChange (hclear : clearedAt ctx patch change.path = false) :
    EpochKept ctx oldEpoch wsTree patch state' change.path epochBlob ↔
      SafeChange ctx oldEpoch wsTree patch epochBlob change := by
  have hstep := hat change.path
  generalize hs : state'.slot change.path = s' at hstep
  cases hstep with
  | untouched item => exact absurd item (itemAt_ne_none hmem)
  | renamed item plan =>
    obtain rfl := eq_of_itemAt hpatch.nodup hmem item
    exact epochKept_iff_of_plan hpatch hmem hclash hclear plan hs
  | @clash _ _ claim item found =>
    -- The epoch has a changed file at the path itself, so it is no clash.
    obtain rfl := eq_of_itemAt hpatch.nodup hmem item
    have hclaim := (dfClaimOf_eq_some.mp found).2.2.2
    cases claim with
    | directory childBlob =>
      have hdead := (dfClaim_directory_iff.mp ⟨childBlob, hclaim⟩).2
      simp [EpochDelta.liveAt, hside] at hdead
    | file a blob =>
      have habsent := (dfClaim_eq_file hclaim).2.2.1
      simp [hside] at habsent
  | contested item found action =>
    obtain rfl := eq_of_itemAt hpatch.nodup hmem item
    refine iff_of_true (epochKept_of_conflict (congrArg Slot.conflict hs)) ?_
    cases action with
    | epochDeleted _ _ _ delta => simp [hside] at delta
    | content kind pair blob delta _ hold =>
      refine safeChange_of_no_pair (no_dest_of_sourceOf hpatch pair)
        (no_source_of_upsert hpatch hmem kind) fun _ ws hblob hside' => absurd hside' ?_
      rw [EpochDelta.oldSide, delta, ← Option.some.inj (blob.symm.trans hblob)]
      exact hold
    | workspaceDeleted kind pair =>
      exact safeChange_of_no_pair (no_dest_of_deleted hpatch hmem kind)
        (no_source_of_isSource pair) fun hne => absurd kind hne
  | resolved item found action =>
    obtain rfl := eq_of_itemAt hpatch.nodup hmem item
    cases action with
    | @merged wsBlob new base entry kind pair blob delta _ hold merge =>
      have hdelta := hside.symm.trans delta
      simp only [Option.some.injEq, Prod.mk.injEq] at hdelta
      obtain ⟨hbase, rfl⟩ := hdelta
      refine iff_of_true ((epochKept_of_clean hs hclash).mpr (.inr ⟨base, wsBlob, hbase,
        blobAt_of_change hpatch hmem blob, merge⟩)) ?_
      refine safeChange_of_no_pair (no_dest_of_sourceOf hpatch pair)
        (no_source_of_upsert hpatch hmem kind) fun _ ws hblob hside' => absurd hside' ?_
      rw [hbase, ← Option.some.inj (blob.symm.trans hblob)]
      exact fun he => hold (Option.some.inj he)
  | applied item plan found reason settled hslot =>
    obtain rfl := eq_of_itemAt hpatch.nodup hmem item
    exact epochKept_iff_of_applied hpatch hat hmem hside hclash plan reason hslot hs
  | kept item plan found reason contested => cases contested

end Change

end OnePath

/-! ### All paths -/

section Step

variable {ctx : ReplayContext} {oldEpoch newEpoch : GitTree} {commit : ReplayCommit}
  {patch : PatchSet} {state' : ConflictTree}

/-- A path that the epoch changed keeps its change when a clash of the commit removes it, when
the commit leaves it alone, or when what the commit makes of it is safe; and in no other case. -/
private theorem epochKept_iff (hdelta : IsEpochDelta oldEpoch newEpoch ctx.delta)
    (hpatch : IsPatch ctx oldEpoch commit.tree patch)
    (hat : ∀ p, StepAt ctx patch p ⟨newEpoch.lookup p, none⟩ (state'.slot p)) {p : Path}
    {epochBlob : GitOid} (hchanged : EpochChanged oldEpoch newEpoch p epochBlob) :
    EpochKept ctx oldEpoch commit.tree patch state' p epochBlob ↔
      clearedAt ctx patch p = true ∨ ∀ change ∈ patch.changes, change.path = p →
        SafeChange ctx oldEpoch commit.tree patch epochBlob change := by
  have hclash := inClash_iff_of_seed hpatch hat p
  by_cases hclear : clearedAt ctx patch p = true
  · exact iff_of_true (.inl (.inr (.inl (hclash.mpr hclear)))) (.inl hclear)
  have hnoClash : ¬ InClash state' p := mt hclash.mp hclear
  cases hitem : itemAt (·.path) patch.changes p with
  | none =>
    refine iff_of_true ?_ (.inr fun change hmem hpath => ?_)
    · obtain ⟨entry, hentry, hblob⟩ := Option.map_eq_some_iff.mp hchanged.1
      refine .inl (.inr (.inr ⟨entry, ?_, .inl hblob⟩))
      rw [(hat p).of_untouched hitem, cleared, if_neg hclear, hentry]
    · exact absurd (hpath ▸ hitem) (itemAt_ne_none hmem)
  | some change =>
    have hmem := mem_of_itemAt hitem
    obtain rfl : change.path = p := key_of_itemAt hitem
    have hone := epochKept_iff_safeChange hpatch hat hmem
      (delta_of_epochChanged hdelta hchanged) hnoClash (Bool.not_eq_true _ ▸ hclear)
    rw [hone]
    constructor
    · intro h
      refine .inr fun c hc hpath => ?_
      have hitem' := itemAt_of_mem (fun c : FileChange => c.path) hpatch.nodup hc
      rw [hpath, hitem] at hitem'
      exact Option.some.inj hitem' ▸ h
    · exact fun h => h.resolve_left hclear change hmem rfl

/-- A step from the new epoch keeps all that the epoch changed exactly when each change of the
commit to such a path is safe, or the path is on the epoch's side of a clash. -/
theorem replayStep_keepsEpoch_iff (hdelta : IsEpochDelta oldEpoch newEpoch ctx.delta)
    (hdiff : IsDelta oldEpoch commit.tree commit.diff) (hsides : commit.sides = [])
    (hpatch : workspacePatch ctx commit.diff = .ok patch)
    (hstep : replayStep ctx (seedConflictTreeFromEpoch newEpoch ctx.baseEpochId) commit =
      .ok state') :
    (∀ p epochBlob, EpochChanged oldEpoch newEpoch p epochBlob →
        EpochKept ctx oldEpoch commit.tree patch state' p epochBlob) ↔
      ∀ p epochBlob, EpochChanged oldEpoch newEpoch p epochBlob →
        clearedAt ctx patch p = true ∨ ∀ change ∈ patch.changes, change.path = p →
          SafeChange ctx oldEpoch commit.tree patch epochBlob change := by
  obtain ⟨patch', hpatch', hisPatch, hat⟩ := replayStep_at hdiff hsides hstep
  obtain rfl : patch = patch' := Except.ok.inj (hpatch.symm.trans hpatch')
  simp only [slot_seed] at hat
  exact forall₃_congr fun p epochBlob hchanged => epochKept_iff hdelta hisPatch hat hchanged

end Step

section Samples

private def file : Path := ⟨[.lit "kept.rs"], by decide⟩

private def oldFile : MaterializedEntry := ⟨.blob, sampleBlob 1⟩

private def newFile : MaterializedEntry := ⟨.blob, sampleBlob 2⟩

/-- The epoch edits the file. -/
private def epochEntries : List DiffEntry := [.modified file oldFile newFile]

/-- The workspace writes the file. -/
private def writes (entry : MaterializedEntry) : ReplayCommit :=
  ⟨sampleBlob 8, sampleTree [(file, entry)], [.modified file oldFile entry], []⟩

private def patchOf (content : Bytes) (entry : MaterializedEntry) : PatchSet :=
  ⟨⟨"w"⟩, ⟨sampleBlob 7⟩,
    [⟨file, .modified, some content, some (fileIdFromBlob oldFile.oid), some entry.oid,
      some entry.mode⟩]⟩

private theorem no_pair_of_patchOf (content : Bytes) (entry : MaterializedEntry) (f q : Path) :
    ¬ IsRenamePair (patchOf content entry).changes f q := by
  intro h
  obtain ⟨d, hd, -, -, -, hkind, -⟩ := h.changes
  obtain rfl := List.mem_singleton.mp hd
  cases hkind

theorem replayStep_keepsEpoch_edit :
    ∃ state', replayStep (sampleContext epochEntries)
        (seedConflictTreeFromEpoch (sampleTree [(file, newFile)]) ⟨sampleBlob 7⟩)
        (writes ⟨.blob, sampleBlob 3⟩) = .ok state' ∧
      ∀ p epochBlob,
        EpochChanged (sampleTree [(file, oldFile)]) (sampleTree [(file, newFile)]) p epochBlob →
          EpochKept (sampleContext epochEntries) (sampleTree [(file, oldFile)])
            (sampleTree [(file, ⟨.blob, sampleBlob 3⟩)]) (patchOf [0] ⟨.blob, sampleBlob 3⟩)
            state' p epochBlob := by
  obtain ⟨state', hstep⟩ := ExceptRun.exists_ok
    (x := replayStep (sampleContext epochEntries)
      (seedConflictTreeFromEpoch (sampleTree [(file, newFile)]) ⟨sampleBlob 7⟩)
      (writes ⟨.blob, sampleBlob 3⟩)) (by decide)
  have hpatch : workspacePatch (sampleContext epochEntries)
      (writes ⟨.blob, sampleBlob 3⟩).diff = .ok (patchOf [0] ⟨.blob, sampleBlob 3⟩) := by rfl
  refine ⟨state', hstep, (replayStep_keepsEpoch_iff (isEpochDelta_sampleContext (by decide))
    (by decide) rfl hpatch hstep).mpr ?_⟩
  intro p epochBlob _
  refine .inr fun change hmem _ => ?_
  obtain rfl := List.mem_singleton.mp hmem
  have hpair := no_pair_of_patchOf [0] ⟨.blob, sampleBlob 3⟩
  refine safeChange_of_no_pair (fun f => hpair f _) (hpair _) fun _ ws hws hside => ?_
  cases hws
  exact absurd hside (by decide)

/-- Making a file executable puts back its old content over the epoch's edit. -/
theorem replayStep_reverts_chmod :
    ∃ state', replayStep (sampleContext epochEntries)
        (seedConflictTreeFromEpoch (sampleTree [(file, newFile)]) ⟨sampleBlob 7⟩)
        (writes ⟨.blobExecutable, sampleBlob 1⟩) = .ok state' ∧
      EpochChanged (sampleTree [(file, oldFile)]) (sampleTree [(file, newFile)]) file
        newFile.oid ∧
      state'.slot file = ⟨some ⟨.blobExecutable, oldFile.oid⟩, none⟩ ∧
      ¬ EpochKept (sampleContext epochEntries) (sampleTree [(file, oldFile)])
        (sampleTree [(file, ⟨.blobExecutable, sampleBlob 1⟩)])
        (patchOf [0] ⟨.blobExecutable, sampleBlob 1⟩) state' file newFile.oid := by
  obtain ⟨state', hstep⟩ := ExceptRun.exists_ok
    (x := replayStep (sampleContext epochEntries)
      (seedConflictTreeFromEpoch (sampleTree [(file, newFile)]) ⟨sampleBlob 7⟩)
      (writes ⟨.blobExecutable, sampleBlob 1⟩)) (by decide)
  have hchanged : EpochChanged (sampleTree [(file, oldFile)]) (sampleTree [(file, newFile)]) file
      newFile.oid := ⟨by decide, by decide⟩
  have hslot : (replayStep (sampleContext epochEntries)
      (seedConflictTreeFromEpoch (sampleTree [(file, newFile)]) ⟨sampleBlob 7⟩)
      (writes ⟨.blobExecutable, sampleBlob 1⟩)).toOption.map (·.slot file) =
        some ⟨some ⟨.blobExecutable, oldFile.oid⟩, none⟩ := by decide
  rw [hstep] at hslot
  refine ⟨state', hstep, hchanged, Option.some.inj hslot, ?_⟩
  have hdiff : IsDelta (sampleTree [(file, oldFile)])
      (writes ⟨.blobExecutable, sampleBlob 1⟩).tree
      (writes ⟨.blobExecutable, sampleBlob 1⟩).diff := by decide
  obtain ⟨patch, hpatch, hisPatch, hat⟩ := replayStep_at hdiff rfl hstep
  obtain rfl : patchOf [0] ⟨.blobExecutable, sampleBlob 1⟩ = patch :=
    Except.ok.inj (Eq.trans (by rfl) hpatch)
  simp only [slot_seed] at hat
  have hdelta : IsEpochDelta (sampleTree [(file, oldFile)]) (sampleTree [(file, newFile)])
      (sampleContext epochEntries).delta := isEpochDelta_sampleContext (by decide)
  have hkept := epochKept_iff hdelta hisPatch hat hchanged
  refine mt hkept.mp (not_or.mpr ⟨by decide, fun hsafe => ?_⟩)
  have hpair := no_pair_of_patchOf [0] ⟨.blobExecutable, sampleBlob 1⟩
  rcases (hsafe _ (List.mem_singleton_self _) rfl).written (by decide) (fun f => hpair f _)
    (sampleBlob 1) rfl (by decide) with h | ⟨base, ws, hbase, hws, hmerge⟩
  · exact absurd h (by decide)
  · have hbase' : some (sampleBlob 1) = some base := hbase
    have hws' : some (sampleBlob 1) = some ws := hws
    cases hbase'
    cases hws'
    exact absurd hmerge (by decide)

end Samples

end Maw
