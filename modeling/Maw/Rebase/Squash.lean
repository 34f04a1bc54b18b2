import Maw.Rebase.Replay

/-!
# A chain of commits and its squash

A replay of many commits and the replay of one commit with the same final tree should end with
the same clean tree, when both end without conflicts. The commits of both replays are asked to be
sound: none writes back what the epoch replaced, none renames over what the epoch changed, and a
rename of what the epoch changed is the same in both replays. Then each path ends with an entry
that only the two epochs and the head of the workspace determine.

## Main definitions

* `SoundCommit` — what is asked of a commit and of the state before it.
* `settledEntry` — the entry that a path ends with.

## Main results

* `replay_settled` — a replay of sound commits that ends without conflicts ends with these entries.
* `replay_eq_squash` — a chain and its squash end with the same clean tree.
-/

open PointwiseFold

namespace Maw

open ConflictTree

/-- What is asked of a commit for its replay to compose with others. The squashed patch is that of
the single commit with the final tree. -/
structure SoundCommit (ctx : ReplayContext) (newEpoch : GitTree) (squashed patch : PatchSet)
    (state : ConflictTree) : Prop where
  /-- A path that is not renamed to is not written with the old blob of the epoch. -/
  written : ∀ change ∈ patch.changes, change.kind ≠ .deleted →
    (∀ f, ¬ IsRenamePair patch.changes f change.path) → ∀ ws, change.blob = some ws →
      ∀ sides, ctx.delta.lookup change.path = some sides → sides.1 ≠ some ws
  /-- A path that the epoch left alone or deleted is not renamed over one that it changed. -/
  overwritten : ∀ f q, IsRenamePair patch.changes f q → ctx.delta.liveAt f = none →
    ctx.delta.lookup q = none
  /-- A rename of a path that the epoch changed is a rename of the squashed patch too. -/
  followed : ∀ f q, IsRenamePair patch.changes f q → ctx.delta.liveAt f ≠ none →
    IsRenamePair squashed.changes f q
  /-- And the paths of such a rename are changed by this rename only. -/
  alone : ∀ f q, IsRenamePair squashed.changes f q → ctx.delta.liveAt f ≠ none →
    ∀ change ∈ patch.changes, change.path = f ∨ change.path = q →
      IsRenamePair patch.changes f q
  /-- A text merge takes the mode of the new epoch. -/
  mode : ∀ change ∈ patch.changes, (∀ f, ¬ IsRenamePair patch.changes f change.path) →
    ∀ ws base new, change.blob = some ws → new ≠ ws →
    ctx.delta.lookup change.path = some (some base, some new) →
    threeWayText ctx change.path base new ws ≠ none →
      ((state.slot change.path).clean.map (·.mode)).or change.mode =
        (newEpoch.lookup change.path).map (·.mode)

/-- The patch of the commit is sound. -/
def IsSound (ctx : ReplayContext) (newEpoch : GitTree) (squashed : PatchSet) (_parent : GitTree)
    (state : ConflictTree) (commit : ReplayCommit) : Prop :=
  ∀ patch, workspacePatch ctx commit.diff = .ok patch →
    SoundCommit ctx newEpoch squashed patch state

section Settled

variable (ctx : ReplayContext) (oldEpoch newEpoch : GitTree) (squashed : PatchSet)

/-- The merge of the epoch's entry of a path with that of the workspace. -/
def mergedEntry (wsTree : GitTree) (p : Path) : Option MaterializedEntry :=
  match ctx.delta.lookup p with
  | none => wsTree.lookup p
  | some (_, none) => none
  | some (oldSide, some new) =>
    if wsTree.lookup p = oldEpoch.lookup p then newEpoch.lookup p
    else do
      let entry ← wsTree.lookup p
      if entry.oid = new then pure entry
      else do
        let mode ← (newEpoch.lookup p).map (·.mode)
        let base ← oldSide
        let merged ← threeWayText ctx p base new entry.oid
        pure ⟨mode, merged⟩

/-- The source of a rename to the path that carries an epoch's change, and the new blob. -/
def followedTo (p : Path) : Option (Path × GitOid) := do
  let f ← (collectRenamePairs squashed).sourceOf p
  let new ← ctx.delta.liveAt f
  pure (f, new)

/-- The entry that a path without conflict ends with, for the tree of the workspace's head. -/
def settledEntry (wsTree : GitTree) (p : Path) : Option MaterializedEntry :=
  if (collectRenamePairs squashed).isSource p ∧ (ctx.delta.liveAt p).isSome then
    if wsTree.lookup p = none then none else newEpoch.lookup p
  else
    match followedTo ctx squashed p with
    | some (f, new) =>
      if wsTree.lookup f = none then (wsTree.lookup p).map fun e => ⟨e.mode, new⟩
      else newEpoch.lookup p
    | none => mergedEntry ctx oldEpoch newEpoch wsTree p

end Settled

section Step

variable {ctx : ReplayContext} {oldEpoch newEpoch parent tree : GitTree}
  {squashed patch : PatchSet} {state state' : ConflictTree} {p : Path}

/-- A conflict that no sound commit can take away: the epoch has no new blob at the path, and the
path is not renamed to from one where it has. -/
def IsStuck (ctx : ReplayContext) (squashed : PatchSet) (state : ConflictTree) (p : Path) : Prop :=
  (state.slot p).conflict ≠ none ∧ ctx.delta.liveAt p = none ∧ followedTo ctx squashed p = none

theorem followedTo_eq_some (hnodup : (squashed.changes.map (·.path)).Nodup) {f : Path}
    {new : GitOid} : followedTo ctx squashed p = some (f, new) ↔
      IsRenamePair squashed.changes f p ∧ ctx.delta.liveAt f = some new := by
  simp only [followedTo, bind, pure, Option.bind_eq_some_iff, sourceOf_eq_some hnodup,
    Option.some.injEq, Prod.mk.injEq]
  constructor
  · rintro ⟨_, hpair, _, hlive, rfl, rfl⟩
    exact ⟨hpair, hlive⟩
  · rintro ⟨hpair, hlive⟩
    exact ⟨f, hpair, new, hlive, rfl, rfl⟩

theorem followedTo_ne_none (hnodup : (squashed.changes.map (·.path)).Nodup) {f : Path}
    (hpair : IsRenamePair squashed.changes f p) (hlive : ctx.delta.liveAt f ≠ none) :
    followedTo ctx squashed p ≠ none := by
  obtain ⟨new, hnew⟩ := Option.ne_none_iff_exists'.mp hlive
  rw [(followedTo_eq_some hnodup).mpr ⟨hpair, hnew⟩]
  exact Option.some_ne_none _

/-- A plan for a path makes it the end of a rename that carries an epoch's change. -/
theorem followedTo_of_plan (hsquashed : (squashed.changes.map (·.path)).Nodup)
    (hpatch : IsPatch ctx parent tree patch)
    (hsound : SoundCommit ctx newEpoch squashed patch state) {change : FileChange}
    {res : RenameResolution}
    (hplan : renameResolution ctx patch.workspaceId (collectRenamePairs patch) change = some res) :
    followedTo ctx squashed change.path ≠ none := by
  obtain ⟨-, ws, f, refOld, new, -, hsource, hdelta, -⟩ := renameResolution_eq_some.mp hplan
  have hlive : ctx.delta.liveAt f ≠ none := by simp [EpochDelta.liveAt, hdelta]
  exact followedTo_ne_none hsquashed
    (hsound.followed f _ ((sourceOf_eq_some hpatch.nodup).mp hsource) hlive) hlive

/-- A stuck conflict outlives a sound commit. -/
theorem IsStuck.step (hsquashed : (squashed.changes.map (·.path)).Nodup)
    (hpatch : IsPatch ctx parent tree patch)
    (hsound : SoundCommit ctx newEpoch squashed patch state)
    (hat : StepAt ctx patch p (state.slot p) (state'.slot p))
    (h : IsStuck ctx squashed state p) : IsStuck ctx squashed state' p := by
  obtain ⟨hconflict, hlive, hfollowed⟩ := h
  refine ⟨?_, hlive, hfollowed⟩
  generalize state'.slot p = s' at hat
  cases hat with
  | untouched => exact hconflict
  | renamed item plan =>
    obtain rfl := key_of_itemAt item
    exact absurd hfollowed (followedTo_of_plan hsquashed hpatch hsound plan)
  | clash | contested | kept => exact Option.some_ne_none _
  | resolved item found action =>
    obtain rfl := key_of_itemAt item
    cases action with
    | merged _ _ _ delta => simp [EpochDelta.liveAt, delta] at hlive
  | applied _ _ _ _ settled => exact absurd settled hconflict

/-- A clash of a sound commit is stuck. -/
theorem isStuck_of_clash (hsquashed : (squashed.changes.map (·.path)).Nodup)
    (hpatch : IsPatch ctx parent tree patch)
    (hsound : SoundCommit ctx newEpoch squashed patch state) {change : FileChange}
    (hmem : change ∈ patch.changes) {ws : GitOid} {claim : DfClaim}
    (hclaim : dfClaimOf ctx (collectRenamePairs patch) change = some (ws, claim))
    (hat : StepAt ctx patch change.path (state.slot change.path) (state'.slot change.path)) :
    IsStuck ctx squashed state' change.path := by
  obtain ⟨-, hdest, -, hfound⟩ := dfClaimOf_eq_some.mp hclaim
  refine ⟨?_, ?_, ?_⟩
  · rw [hat.of_clash hpatch.nodup hmem hclaim]
    exact Option.some_ne_none _
  · cases claim with
    | directory childBlob => exact (dfClaim_directory_iff.mp ⟨childBlob, hfound⟩).2
    | file a blob =>
      have habsent : ctx.delta.lookup change.path = none := (dfClaim_eq_file hfound).2.2.1
      rw [EpochDelta.liveAt, habsent, Option.bind_none]
  · by_contra hne
    obtain ⟨⟨f, new⟩, hfollowed⟩ := Option.ne_none_iff_exists'.mp hne
    obtain ⟨hpair, hlive⟩ := (followedTo_eq_some hsquashed).mp hfollowed
    have hpair' := hsound.alone f _ hpair (by simp [hlive]) change hmem (.inr rfl)
    simp [(sourceOf_eq_some hpatch.nodup).mpr hpair'] at hdest

section Settled

variable (hsquashed : (squashed.changes.map (·.path)).Nodup)
  (hpatch : IsPatch ctx parent tree patch)
  (hsound : SoundCommit ctx newEpoch squashed patch state)
  (hdelta : IsEpochDelta oldEpoch newEpoch ctx.delta)

include hdelta in
/-- A path that has its old entry is not written with a blob other than the old one. -/
theorem oldSide_of_lookup_eq {sides : DeltaSides} (h : ctx.delta.lookup p = some sides)
    {entry : MaterializedEntry} (hentry : oldEpoch.lookup p = some entry) :
    sides.1 = some entry.oid := by
  rcases (hdelta.lookup_eq_some h).old_eq with hold | ⟨hnone, -⟩
  · rw [hold, hentry]
    rfl
  · rw [hentry] at hnone
    cases hnone

include hsquashed hsound in
/-- At a path that no rename carries an epoch's change to, the change of a sound commit is no
end of such a rename either. -/
private theorem liveAt_eq_none_of_pair (hfollowed : followedTo ctx squashed p = none) {f : Path}
    (hpair : IsRenamePair patch.changes f p) : ctx.delta.liveAt f = none := by
  by_contra hlive
  exact followedTo_ne_none hsquashed (hsound.followed f p hpair hlive) hlive hfollowed

include hsquashed hpatch hsound hdelta in
/-- An addition or modification that is applied leaves the merged entry. -/
private theorem mergedEntry_of_passed {change : FileChange} (hmem : change ∈ patch.changes)
    (hfollowed : followedTo ctx squashed change.path = none)
    (hsource : (collectRenamePairs squashed).isSource change.path = true →
      ctx.delta.liveAt change.path = none)
    (reason : PassReason ctx (collectRenamePairs patch) change) :
    mergedEntry ctx oldEpoch newEpoch tree change.path = tree.lookup change.path := by
  cases reason with
  | blobless kind blob =>
    obtain ⟨-, ws, -, hblob, -⟩ := hpatch.lookup_of_upsert hmem kind
    simp [hblob] at blob
  | @dest f kind pair =>
    have hpair := (sourceOf_eq_some hpatch.nodup).mp pair
    have hdead := liveAt_eq_none_of_pair hsquashed hsound hfollowed hpair
    rw [mergedEntry, hsound.overwritten f _ hpair hdead]
  | source kind pair =>
    obtain ⟨q, hpair⟩ := isSource_iff.mp pair
    have hdead : ctx.delta.liveAt change.path = none := by
      by_contra hlive
      exact hlive (hsource (isSource_iff.mpr ⟨q, hsound.followed _ q hpair hlive⟩))
    rw [hpatch.lookup_of_deleted hmem kind, mergedEntry]
    cases hsides : ctx.delta.lookup change.path with
    | none => exact hpatch.lookup_of_deleted hmem kind
    | some sides =>
      obtain ⟨oldSide, _ | new⟩ := sides
      · rfl
      · simp [EpochDelta.liveAt, hsides] at hdead
  | unchanged _ _ delta => rw [mergedEntry, delta]
  | @same ws refOld kind pair blob delta =>
    obtain ⟨mode, ws', -, hblob, htree⟩ := hpatch.lookup_of_upsert hmem kind
    obtain rfl : ws = ws' := Option.some.inj (blob.symm.trans hblob)
    have hne : tree.lookup change.path ≠ oldEpoch.lookup change.path := by
      rw [htree]
      intro hold
      exact hsound.written change hmem kind (fun f hf => by
        simp [(sourceOf_eq_some hpatch.nodup).mpr hf] at pair) ws blob _ delta
        (oldSide_of_lookup_eq hdelta delta hold.symm)
    simp only [mergedEntry, delta, if_neg hne]
    rw [htree]
    simp
  | reverted kind pair blob delta =>
    exact absurd rfl (hsound.written change hmem kind (fun f hf => by
      simp [(sourceOf_eq_some hpatch.nodup).mpr hf] at pair) _ blob _ delta)
  | bothDeleted kind _ delta =>
    rw [mergedEntry, delta, hpatch.lookup_of_deleted hmem kind]

include hpatch hsound hdelta in
/-- A text merge leaves the merged entry. -/
private theorem mergedEntry_of_merged {change : FileChange} (hmem : change ∈ patch.changes)
    {workspaceId : WorkspaceId} {entry : MaterializedEntry}
    (action : ActionCases ctx workspaceId (collectRenamePairs patch) change
      ((state.slot change.path).clean.map (·.mode)) (.resolve entry)) :
    mergedEntry ctx oldEpoch newEpoch tree change.path = some entry := by
  cases action with
  | @merged ws new base _ kind pair blob delta hnew hold merge hmode =>
    obtain ⟨mode, ws', hchangeMode, hblob, htree⟩ := hpatch.lookup_of_upsert hmem kind
    obtain rfl : ws = ws' := Option.some.inj (blob.symm.trans hblob)
    have hne : tree.lookup change.path ≠ oldEpoch.lookup change.path := by
      rw [htree]
      intro heq
      exact hold (Option.some.inj (oldSide_of_lookup_eq hdelta delta heq.symm))
    have hpair (f : Path) : ¬ IsRenamePair patch.changes f change.path := fun hf => by
      simp [(sourceOf_eq_some hpatch.nodup).mpr hf] at pair
    have hepoch := hsound.mode change hmem hpair ws base new blob hnew delta (by simp [merge])
    obtain ⟨epochEntry, hlookup, -⟩ := Option.map_eq_some_iff.mp
      (hdelta.lookup_eq_some delta).new_eq.symm
    rw [hepoch, hlookup] at hmode
    simp only [mergedEntry, delta, if_neg hne]
    rw [htree]
    simp only [bind, Option.bind_some, if_neg hnew.symm, hlookup, Option.map_some, merge, pure]
    rw [show epochEntry.mode = entry.mode from hmode.symm]

end Settled

/-- Every path without conflict has its settled entry, unless some conflict is stuck. -/
def Settles (ctx : ReplayContext) (oldEpoch newEpoch : GitTree) (squashed : PatchSet)
    (wsTree : GitTree) (state : ConflictTree) : Prop :=
  (∃ p, IsStuck ctx squashed state p) ∨ ∀ p, (state.slot p).conflict = none →
    (state.slot p).clean = settledEntry ctx oldEpoch newEpoch squashed wsTree p

section SettlesStep

variable (hsquashed : (squashed.changes.map (·.path)).Nodup)
  (hpatch : IsPatch ctx parent tree patch)
  (hsound : SoundCommit ctx newEpoch squashed patch state)
  (hdelta : IsEpochDelta oldEpoch newEpoch ctx.delta)
  (hat : StepAt ctx patch p (state.slot p) (state'.slot p))
  (hprev : (state.slot p).conflict = none →
    (state.slot p).clean = settledEntry ctx oldEpoch newEpoch squashed parent p)
  (hnone : (state'.slot p).conflict = none)

theorem settledEntry_of_source {wsTree : GitTree}
    (h : (collectRenamePairs squashed).isSource p ∧ (ctx.delta.liveAt p).isSome) :
    settledEntry ctx oldEpoch newEpoch squashed wsTree p =
      if wsTree.lookup p = none then none else newEpoch.lookup p := by
  rw [settledEntry, if_pos h]

include hsquashed in
theorem settledEntry_of_dest {wsTree : GitTree} {f : Path} {new : GitOid}
    (h : followedTo ctx squashed p = some (f, new)) :
    settledEntry ctx oldEpoch newEpoch squashed wsTree p =
      if wsTree.lookup f = none then (wsTree.lookup p).map fun e => ⟨e.mode, new⟩
      else newEpoch.lookup p := by
  have hsource : ¬ (collectRenamePairs squashed).isSource p = true := by
    rw [isSource_iff]
    rintro ⟨q, hq⟩
    obtain ⟨-, -, m, hm, -, -, hmp, hmk, -⟩ := ((followedTo_eq_some hsquashed).mp h).1.changes
    simp [hq.kind_of_source hsquashed hm hmp] at hmk
  rw [settledEntry, if_neg fun hc => hsource hc.1, h]

theorem settledEntry_of_other {wsTree : GitTree}
    (hsource : ¬ ((collectRenamePairs squashed).isSource p ∧ (ctx.delta.liveAt p).isSome))
    (hdest : followedTo ctx squashed p = none) :
    settledEntry ctx oldEpoch newEpoch squashed wsTree p =
      mergedEntry ctx oldEpoch newEpoch wsTree p := by
  rw [settledEntry, if_neg hsource, hdest]

include hpatch hsound hat hprev hnone

/-- A path that is renamed away is left alone until it is gone. -/
private theorem settledEntry_step_source
    (hclear : ∀ q, clearedAt ctx patch q = false)
    (h : (collectRenamePairs squashed).isSource p ∧ (ctx.delta.liveAt p).isSome) :
    (state'.slot p).clean = settledEntry ctx oldEpoch newEpoch squashed tree p := by
  obtain ⟨q, hpair⟩ := isSource_iff.mp h.1
  rw [settledEntry_of_source h]
  rw [settledEntry_of_source h] at hprev
  have hlive : ctx.delta.liveAt p ≠ none := Option.isSome_iff_ne_none.mp h.2
  have hdeleted {change : FileChange} (item : itemAt (·.path) patch.changes p = some change) :
      change.kind = .deleted := by
    have hmem := mem_of_itemAt item
    have hpath : change.path = p := key_of_itemAt item
    exact (hsound.alone p q hpair hlive change hmem (.inl hpath)).kind_of_source hpatch.nodup hmem
      hpath
  generalize state'.slot p = s' at hat hnone ⊢
  cases hat with
  | untouched item =>
    rw [cleared, hclear, if_neg Bool.false_ne_true, hprev hnone, (hpatch.item_eq_none p).mp item]
  | renamed item plan =>
    have hmodified := (renameResolution_eq_some.mp plan).1
    simp [hdeleted item] at hmodified
  | clash | contested | kept => simp at hnone
  | resolved item found action =>
    cases action with
    | merged kind => exact absurd (hdeleted item) kind
  | applied item plan found reason settled hslot =>
    obtain rfl := key_of_itemAt item
    have hmem := mem_of_itemAt item
    rw [hpatch.settledSlot_eq hmem hslot, hpatch.lookup_of_deleted hmem (hdeleted item), if_pos rfl]

include hsquashed

/-- The end of a rename that carries the epoch's change is left alone until the rename. -/
private theorem settledEntry_step_dest (hclear : ∀ q, clearedAt ctx patch q = false) {f : Path}
    {new : GitOid} (h : followedTo ctx squashed p = some (f, new)) :
    (state'.slot p).clean = settledEntry ctx oldEpoch newEpoch squashed tree p := by
  obtain ⟨hpair, hlive⟩ := (followedTo_eq_some hsquashed).mp h
  have halone := hsound.alone f p hpair (by simp [hlive])
  rw [settledEntry_of_dest hsquashed h]
  rw [settledEntry_of_dest hsquashed h] at hprev
  cases hitem : itemAt (·.path) patch.changes p with
  | none =>
    have hitem' : itemAt (·.path) patch.changes f = none := by
      by_contra hne
      obtain ⟨change, hchange⟩ := Option.ne_none_iff_exists'.mp hne
      obtain ⟨-, -, m, hm, -, -, hmp, -⟩ :=
        (halone change (mem_of_itemAt hchange) (.inl (key_of_itemAt hchange))).changes
      exact itemAt_ne_none hm (hmp ▸ hitem)
    rw [hat.of_untouched hitem] at hnone ⊢
    rw [cleared, hclear, if_neg Bool.false_ne_true, hprev hnone, (hpatch.item_eq_none p).mp hitem,
      (hpatch.item_eq_none f).mp hitem']
  | some change =>
    have hmem := mem_of_itemAt hitem
    obtain rfl : change.path = p := key_of_itemAt hitem
    have hpair' := halone change hmem (.inr rfl)
    obtain ⟨d, hd, -, -, hdp, hdk, -⟩ := hpair'.changes
    have hgone : tree.lookup f = none := hdp ▸ hpatch.lookup_of_deleted hd hdk
    have hkind := hpair'.kind_of_dest hpatch.nodup hmem rfl
    obtain ⟨mode, ws, hmode, hblob, htree⟩ := hpatch.lookup_of_upsert hmem (by simp [hkind])
    obtain ⟨⟨refOld, _⟩, hsides, rfl⟩ := Option.bind_eq_some_iff.mp hlive
    have hplan : renameResolution ctx patch.workspaceId (collectRenamePairs patch) change = some _ :=
      renameResolution_eq_some.mpr ⟨hkind, ws, f, refOld, new, hblob,
        (sourceOf_eq_some hpatch.nodup).mpr hpair', hsides, rfl⟩
    rw [hat.of_plan hpatch.nodup hmem hplan] at hnone ⊢
    split_ifs at hnone ⊢ with hold
    · rw [cleared, hclear, if_neg Bool.false_ne_true, htree, hmode]
      rfl
    · cases hnone

include hdelta in
/-- Every other path takes the merged entry with each commit. -/
private theorem settledEntry_step_other (hclear : ∀ q, clearedAt ctx patch q = false)
    (hsource : ¬ ((collectRenamePairs squashed).isSource p ∧ (ctx.delta.liveAt p).isSome))
    (hdest : followedTo ctx squashed p = none) :
    (state'.slot p).clean = settledEntry ctx oldEpoch newEpoch squashed tree p := by
  rw [settledEntry_of_other hsource hdest]
  rw [settledEntry_of_other hsource hdest] at hprev
  generalize hs : state'.slot p = s' at hat hnone ⊢
  cases hat with
  | untouched item =>
    rw [cleared, hclear, if_neg Bool.false_ne_true, hprev hnone, mergedEntry, mergedEntry,
      (hpatch.item_eq_none p).mp item]
  | renamed item plan =>
    obtain rfl := key_of_itemAt item
    exact absurd hdest (followedTo_of_plan hsquashed hpatch hsound plan)
  | clash | contested | kept => simp at hnone
  | resolved item found action =>
    obtain rfl := key_of_itemAt item
    rw [cleared, hclear, if_neg Bool.false_ne_true] at action
    exact (mergedEntry_of_merged hpatch hsound hdelta (mem_of_itemAt item) action).symm
  | applied item plan found reason settled hslot =>
    obtain rfl := key_of_itemAt item
    have hmem := mem_of_itemAt item
    rw [hpatch.settledSlot_eq hmem hslot]
    refine (mergedEntry_of_passed hsquashed hpatch hsound hdelta hmem hdest ?_ reason).symm
    simpa using hsource

end SettlesStep

theorem clearedAt_eq_false (h : ∀ change ∈ patch.changes,
    dfClaimOf ctx (collectRenamePairs patch) change = none) (q : Path) :
    clearedAt ctx patch q = false := by
  rw [Bool.eq_false_iff]
  intro hclear
  simp only [clearedAt, List.any_eq_true, dfRemoves_eq_true] at hclear
  obtain ⟨change, hmem, ws, claim, hclaim, -⟩ := hclear
  rw [h change hmem] at hclaim
  cases hclaim

/-- A sound commit keeps the settled entries settled. -/
theorem Settles.step (hsquashed : (squashed.changes.map (·.path)).Nodup)
    (hpatch : IsPatch ctx parent tree patch)
    (hsound : SoundCommit ctx newEpoch squashed patch state)
    (hdelta : IsEpochDelta oldEpoch newEpoch ctx.delta)
    (hat : ∀ p, StepAt ctx patch p (state.slot p) (state'.slot p))
    (h : Settles ctx oldEpoch newEpoch squashed parent state) :
    Settles ctx oldEpoch newEpoch squashed tree state' := by
  rcases h with ⟨p, hstuck⟩ | hprev
  · exact .inl ⟨p, hstuck.step hsquashed hpatch hsound (hat p)⟩
  by_cases hclash : ∃ change ∈ patch.changes,
      dfClaimOf ctx (collectRenamePairs patch) change ≠ none
  · obtain ⟨change, hmem, hne⟩ := hclash
    obtain ⟨⟨ws, claim⟩, hclaim⟩ := Option.ne_none_iff_exists'.mp hne
    exact .inl ⟨_, isStuck_of_clash hsquashed hpatch hsound hmem hclaim (hat _)⟩
  have hclear := clearedAt_eq_false (by simpa using hclash)
  refine .inr fun p hnone => ?_
  by_cases hsource : (collectRenamePairs squashed).isSource p ∧ (ctx.delta.liveAt p).isSome
  · exact settledEntry_step_source hpatch hsound (hat p) (hprev p) hnone hclear hsource
  cases hdest : followedTo ctx squashed p with
  | none =>
    exact settledEntry_step_other hsquashed hpatch hsound hdelta (hat p) (hprev p) hnone hclear
      hsource hdest
  | some found =>
    exact settledEntry_step_dest hsquashed hpatch hsound (hat p) (hprev p) hnone hclear hdest

/-- Before the first commit every path has the entry of the new epoch, which is its settled entry
for the old epoch's tree. -/
theorem settles_seed (hsquashed : IsPatch ctx oldEpoch tree squashed)
    (hdelta : IsEpochDelta oldEpoch newEpoch ctx.delta) :
    Settles ctx oldEpoch newEpoch squashed oldEpoch
      (seedConflictTreeFromEpoch newEpoch ctx.baseEpochId) := by
  refine .inr fun p _ => ?_
  rw [slot_seed]
  have hold {f q : Path} (hpair : IsRenamePair squashed.changes f q) : oldEpoch.lookup f ≠ none := by
    obtain ⟨d, hd, -, -, rfl, hkind, -⟩ := hpair.changes
    rw [← hsquashed.lookup_of_deleted hd hkind]
    exact hsquashed.lookup_ne hd
  by_cases hsource : (collectRenamePairs squashed).isSource p ∧ (ctx.delta.liveAt p).isSome
  · obtain ⟨q, hpair⟩ := isSource_iff.mp hsource.1
    rw [settledEntry_of_source hsource, if_neg (hold hpair)]
  cases hdest : followedTo ctx squashed p with
  | some found =>
    obtain ⟨f, new⟩ := found
    obtain ⟨hpair, -⟩ := (followedTo_eq_some hsquashed.nodup).mp hdest
    rw [settledEntry_of_dest hsquashed.nodup hdest, if_neg (hold hpair)]
  | none =>
    rw [settledEntry_of_other hsource hdest, mergedEntry]
    cases hsides : ctx.delta.lookup p with
    | none => exact (hdelta.lookup_eq_none.mp hsides).symm
    | some sides =>
      obtain ⟨oldSide, _ | new⟩ := sides
      · exact Option.map_eq_none_iff.mp (hdelta.lookup_eq_some hsides).new_eq.symm
      · exact (if_pos rfl).symm

end Step

section Runs

variable {ctx : ReplayContext} {oldEpoch newEpoch : GitTree} {squashed : PatchSet}
  {squash : ReplayCommit} {commits : List ReplayCommit} {final final' : ConflictTree}

/-- A replay of sound commits that ends without conflicts ends with the settled entries. -/
theorem replay_settled (hdelta : IsEpochDelta oldEpoch newEpoch ctx.delta) {head : GitTree}
    (hsquashed : IsPatch ctx oldEpoch head squashed) (hchain : IsChain oldEpoch commits)
    (hsound : StepsMeet ctx (IsSound ctx newEpoch squashed) oldEpoch
      (seedConflictTreeFromEpoch newEpoch ctx.baseEpochId) commits)
    (hrun : replay ctx newEpoch commits = .ok final) (hfinal : final.conflicts = ∅) (p : Path) :
    final.clean.lookup p =
      settledEntry ctx oldEpoch newEpoch squashed (headTree oldEpoch commits) p := by
  have hsettles := replay_induction (fun _ => Settles ctx oldEpoch newEpoch squashed)
    (fun hinv hcond hpatch hisPatch _ hat =>
      hinv.step hsquashed.nodup hisPatch (hcond _ hpatch) hdelta hat)
    [] hchain hsound (settles_seed hsquashed hdelta) hrun
  have hnone (q : Path) : (final.slot q).conflict = none := by
    rw [slot_conflict, hfinal, Finmap.lookup_empty]
  rcases hsettles with ⟨q, hconflict, -⟩ | hclean
  · exact absurd (hnone q) hconflict
  · exact hclean p (hnone p)

/-- A chain of commits and the single commit with the same final tree, when every commit is sound
and both replays end without conflicts, end with the same clean tree: at each path the entry that
the epochs and the head of the workspace determine. -/
theorem replay_eq_squash (hdelta : IsEpochDelta oldEpoch newEpoch ctx.delta)
    (hchain : IsChain oldEpoch commits) (hsquash : IsChain oldEpoch [squash])
    (hhead : squash.tree = headTree oldEpoch commits)
    (hsquashed : workspacePatch ctx squash.diff = .ok squashed)
    (hsound : StepsMeet ctx (IsSound ctx newEpoch squashed) oldEpoch
      (seedConflictTreeFromEpoch newEpoch ctx.baseEpochId) commits)
    (hsound' : StepsMeet ctx (IsSound ctx newEpoch squashed) oldEpoch
      (seedConflictTreeFromEpoch newEpoch ctx.baseEpochId) [squash])
    (hrun : replay ctx newEpoch commits = .ok final)
    (hrun' : replay ctx newEpoch [squash] = .ok final')
    (hfinal : final.conflicts = ∅) (hfinal' : final'.conflicts = ∅) :
    final.clean = final'.clean ∧ ∀ p, final.clean.lookup p =
      settledEntry ctx oldEpoch newEpoch squashed squash.tree p := by
  have hpatch := isPatch_of_workspacePatch hsquash.1 hsquashed
  have hentry := replay_settled hdelta hpatch hchain hsound hrun hfinal
  have hentry' := replay_settled hdelta hpatch hsquash hsound' hrun' hfinal'
  rw [← hhead] at hentry
  refine ⟨Finmap.ext_lookup fun p => ?_, hentry⟩
  rw [hentry p, hentry' p]
  rfl

end Runs

section Samples

private def edited : Path := ⟨[.lit "edited.rs"], by decide⟩

private def added : Path := ⟨[.lit "added.rs"], by decide⟩

private def oldEntry : MaterializedEntry := ⟨.blob, sampleBlob 1⟩

private def newEntry : MaterializedEntry := ⟨.blob, sampleBlob 2⟩

private def oldTree : GitTree := sampleTree [(edited, oldEntry)]

private def newTree : GitTree := sampleTree [(edited, newEntry)]

/-- The replays over an epoch that edits one file. -/
private def context : ReplayContext := sampleContext [.modified edited oldEntry newEntry]

private def execEntry : MaterializedEntry := ⟨.blobExecutable, sampleBlob 1⟩

/-- Two commits that make the file executable and take that back. -/
private def chmodTwice : List ReplayCommit :=
  [⟨sampleBlob 8, sampleTree [(edited, execEntry)], [.modified edited oldEntry execEntry], []⟩,
    ⟨sampleBlob 9, oldTree, [.modified edited execEntry oldEntry], []⟩]

/-- Nothing is left of them in the squash, but their replay puts the old content back. -/
theorem replay_chmodTwice_ne_squash :
    IsEpochDelta oldTree newTree context.delta ∧ IsChain oldTree chmodTwice ∧
      headTree oldTree chmodTwice = oldTree ∧
      ∃ final final', replay context newTree chmodTwice = .ok final ∧
        replay context newTree [⟨sampleBlob 9, oldTree, [], []⟩] = .ok final' ∧
        final.conflicts = ∅ ∧ final'.conflicts = ∅ ∧ final.clean.lookup edited = some oldEntry ∧
        final'.clean.lookup edited = some newEntry := by
  refine ⟨isEpochDelta_sampleContext (by decide), ⟨by decide, rfl, by decide, rfl, trivial⟩, rfl, ?_⟩
  obtain ⟨final, hrun⟩ := ExceptRun.exists_ok (x := replay context newTree chmodTwice) (by decide)
  obtain ⟨final', hrun'⟩ := ExceptRun.exists_ok
    (x := replay context newTree [⟨sampleBlob 9, oldTree, [], []⟩]) (by decide)
  have hfinal : (replay context newTree chmodTwice).toOption.map (fun s =>
      (s.conflicts, s.clean.lookup edited)) = some (∅, some oldEntry) := by decide
  have hfinal' : (replay context newTree [⟨sampleBlob 9, oldTree, [], []⟩]).toOption.map (fun s =>
      (s.conflicts, s.clean.lookup edited)) = some (∅, some newEntry) := by decide
  rw [hrun] at hfinal
  rw [hrun'] at hfinal'
  obtain ⟨hnone, hclean⟩ := Prod.mk.inj (Option.some.inj hfinal)
  obtain ⟨hnone', hclean'⟩ := Prod.mk.inj (Option.some.inj hfinal')
  exact ⟨final, final', hrun, hrun', hnone, hnone', hclean, hclean'⟩

/-- A tree with the file as it was and a new one. -/
private def treeWith (n : Nat) : GitTree :=
  sampleTree [(edited, oldEntry), (added, ⟨.blob, sampleBlob n⟩)]

/-- Two commits that add a file and edit it. -/
private def addThenEdit : List ReplayCommit :=
  [⟨sampleBlob 8, treeWith 3, [.added added ⟨.blob, sampleBlob 3⟩], []⟩,
    ⟨sampleBlob 9, treeWith 4, [.modified added ⟨.blob, sampleBlob 3⟩ ⟨.blob, sampleBlob 4⟩], []⟩]

private def addSquash : ReplayCommit :=
  ⟨sampleBlob 9, treeWith 4, [.added added ⟨.blob, sampleBlob 4⟩], []⟩

private def addedPatch (kind : ChangeKind) (n : Nat) (id : GitOid) : PatchSet :=
  ⟨⟨"w"⟩, ⟨sampleBlob 7⟩,
    [⟨added, kind, some [0], some (fileIdFromBlob id), some (sampleBlob n), some .blob⟩]⟩

private def squashedPatch : PatchSet := addedPatch .added 4 (sampleBlob 4)

private theorem no_pair_of_addedPatch {kind : ChangeKind} (hkind : kind ≠ .deleted) {n : Nat}
    {id : GitOid} (f q : Path) : ¬ IsRenamePair (addedPatch kind n id).changes f q := by
  intro h
  obtain ⟨d, hd, -, -, -, hdk, -⟩ := h.changes
  obtain rfl := List.mem_singleton.mp hd
  exact hkind hdk

/-- A commit that touches the added file only is sound. -/
private theorem isSound_addedPatch {kind : ChangeKind} (hkind : kind ≠ .deleted) {n : Nat}
    {id : GitOid} {commit : ReplayCommit}
    (h : workspacePatch context commit.diff = .ok (addedPatch kind n id)) (parent : GitTree)
    (state : ConflictTree) : IsSound context newTree squashedPatch parent state commit := by
  have hdelta : context.delta.lookup added = none := by decide
  intro patch hpatch
  obtain rfl := Except.ok.inj (h.symm.trans hpatch)
  exact {
    written := fun change hmem _ _ ws _ sides hsides => by
      obtain rfl := List.mem_singleton.mp hmem
      rw [hdelta] at hsides
      cases hsides
    overwritten := fun f q hf => absurd hf (no_pair_of_addedPatch hkind f q)
    followed := fun f q hf => absurd hf (no_pair_of_addedPatch hkind f q)
    alone := fun f q hf => absurd hf (no_pair_of_addedPatch (by decide) f q)
    mode := fun change hmem _ ws base new _ _ hsides => by
      obtain rfl := List.mem_singleton.mp hmem
      rw [hdelta] at hsides
      cases hsides }

theorem replay_eq_squash_addThenEdit :
    ∃ final final', replay context newTree addThenEdit = .ok final ∧
      replay context newTree [addSquash] = .ok final' ∧ final.clean = final'.clean := by
  obtain ⟨final, hrun⟩ := ExceptRun.exists_ok (x := replay context newTree addThenEdit) (by decide)
  obtain ⟨final', hrun'⟩ := ExceptRun.exists_ok (x := replay context newTree [addSquash])
    (by decide)
  have hfinal : (replay context newTree addThenEdit).toOption.map (·.conflicts) = some ∅ := by
    decide
  have hfinal' : (replay context newTree [addSquash]).toOption.map (·.conflicts) = some ∅ := by
    decide
  rw [hrun] at hfinal
  rw [hrun'] at hfinal'
  have hsquashed : workspacePatch context addSquash.diff = .ok squashedPatch := by rfl
  have hedit : workspacePatch context
      [.modified added ⟨.blob, sampleBlob 3⟩ ⟨.blob, sampleBlob 4⟩] =
        .ok (addedPatch .modified 4 (sampleBlob 3)) := by rfl
  have hadd : workspacePatch context [.added added ⟨.blob, sampleBlob 3⟩] =
      .ok (addedPatch .added 3 (sampleBlob 3)) := by rfl
  have hdelta : IsEpochDelta oldTree newTree context.delta := isEpochDelta_sampleContext (by decide)
  have hchain : IsChain oldTree addThenEdit := ⟨by decide, rfl, by decide, rfl, trivial⟩
  have hsquash : IsChain oldTree [addSquash] := ⟨by decide, rfl, trivial⟩
  have hsound : StepsMeet context (IsSound context newTree squashedPatch) oldTree
      (seedConflictTreeFromEpoch newTree context.baseEpochId) addThenEdit :=
    ⟨isSound_addedPatch (by decide) hadd _ _,
      fun _ _ => ⟨isSound_addedPatch (by decide) hedit _ _, fun _ _ => trivial⟩⟩
  have hsound' : StepsMeet context (IsSound context newTree squashedPatch) oldTree
      (seedConflictTreeFromEpoch newTree context.baseEpochId) [addSquash] :=
    ⟨isSound_addedPatch (by decide) hsquashed _ _, fun _ _ => trivial⟩
  exact ⟨final, final', hrun, hrun', (replay_eq_squash hdelta hchain hsquash rfl hsquashed hsound
    hsound' hrun hrun' (Option.some.inj hfinal) (Option.some.inj hfinal')).1⟩

end Samples

end Maw
