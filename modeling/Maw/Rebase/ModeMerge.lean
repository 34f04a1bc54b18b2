import Maw.Rebase.Replay

/-!
# The modes of a replay step

A step takes the mode of a settled path from one side only. A path that the workspace left alone,
or whose contents are merged as texts, keeps the mode of the new epoch; every other path has the
mode of the workspace. The modes are merged right exactly when the other side did not change the
mode alone.

## Main definitions

* `MergesModes` — the three-way merge of the modes of a path.
* `EpochModeWins` — the paths with the mode of the new epoch.

## Main results

* `replayStep_clean_at` — where a settled entry comes from, in a step over any commit.
* `replayStep_mergesModes_iff` — when the mode of a settled path is merged right.
-/

open PointwiseFold

namespace Maw

open ConflictTree

/-! ### The sides of a merge commit -/

section Sides

variable {ctx : ReplayContext} {tree tree' : ConflictTree} {wsTree : GitTree} {p : Path}
  {change : FileChange}

/-- A change to the tree of a commit: what it writes is there. -/
def WritesTo (wsTree : GitTree) (change : FileChange) : Prop :=
  change.kind ≠ .deleted → ∃ mode blob, change.mode = some mode ∧ change.blob = some blob ∧
    wsTree.lookup change.path = some ⟨mode, blob⟩

/-- What the sides of a merge commit can make of a path that is not in conflict: nothing, the
entry of the commit's tree where there was none, or a conflict with another blob. -/
def SideAt (wsEntry : Option MaterializedEntry) (p : Path) (s s' : Slot) : Prop :=
  s' = s ∨ (s.clean = none ∧ wsEntry ≠ none ∧ s' = ⟨wsEntry, none⟩) ∨
    ∃ fileId base sides, s'.conflict = some (.content p fileId base sides) ∧
      ∃ entry, wsEntry = some entry ∧ ∃ side ∈ sides, side.content ≠ entry.oid

variable {workspaceId : WorkspaceId} {commit : GitOid} {index : ℕ}

theorem slot_injectMergeSide_of_ne (hp : change.path ≠ p) :
    (injectMergeSide ctx commit index workspaceId tree change).slot p = tree.slot p := by
  have hne : p ≠ change.path := Ne.symm hp
  unfold injectMergeSide
  cases change.blob with
  | none => rfl
  | some blob =>
    dsimp only
    by_cases hdel : change.isDeletion = true
    · rw [if_pos hdel]
    rw [if_neg hdel]
    cases hconflict : tree.conflicts.lookup change.path with
    | some conflict =>
      cases conflict with
      | content q fileId base sides =>
        have hpath : q = change.path := tree.keyed _ _ hconflict
        have hq : p ≠ q := hpath ▸ hne
        dsimp only
        split_ifs
        · rw [slot_insertClean, if_neg hq, slot_removeConflict, if_neg hne]
        · rw [slot_insertConflict, Conflict.path, if_neg hq, slot_removeConflict, if_neg hne]
      | addAdd | modifyDelete | divergentRename => rfl
    | none =>
      cases tree.clean.lookup change.path with
      | some entry =>
        dsimp only
        split_ifs
        · rfl
        · rw [slot_insertConflict, Conflict.path, if_neg hne, slot_removeClean, if_neg hne]
      | none =>
        dsimp only
        split_ifs
        · rw [slot_insertClean, if_neg hne]
        · rw [slot_insertConflict, Conflict.path, if_neg hne, slot_removeClean, if_neg hne]

/-- Sides of two different blobs do not agree. -/
theorem not_sidesAllSame {sides : List ConflictSide} {a b : ConflictSide} (ha : a ∈ sides)
    (hb : b ∈ sides) (hne : a.content ≠ b.content) : sidesAllSame sides = false := by
  cases sides with
  | nil => rfl
  | cons first rest =>
    rw [sidesAllSame, List.all_eq_false]
    by_cases hfirst : a.content = first.content
    · exact ⟨b, hb, by simpa [← hfirst] using Ne.symm hne⟩
    · exact ⟨a, ha, by simpa using hfirst⟩

theorem sideAt_injectMergeSide {s : Slot} (hs : s.conflict = none)
    (hchange : WritesTo wsTree change)
    (h : SideAt (wsTree.lookup change.path) change.path s (tree.slot change.path)) :
    SideAt (wsTree.lookup change.path) change.path s
      ((injectMergeSide ctx commit index workspaceId tree change).slot change.path) := by
  by_cases hkind : change.kind = .deleted
  · have hsame : injectMergeSide ctx commit index workspaceId tree change = tree := by
      unfold injectMergeSide
      cases change.blob with
      | none => rfl
      | some blob => exact if_pos (decide_eq_true hkind)
    rwa [hsame]
  obtain ⟨mode, blob, hmode, hblob, hentry⟩ := hchange hkind
  have hlive : change.isDeletion = false := decide_eq_false hkind
  rw [hentry] at h ⊢
  unfold injectMergeSide
  simp only [hblob, hlive, Bool.false_eq_true, if_false]
  rcases h with hsame | ⟨hnone, -, hset⟩ | ⟨fileId, base, sides, hconflict, entry, he, side, hside,
    hne⟩
  · have hlookup : tree.conflicts.lookup change.path = none :=
      (congrArg Slot.conflict hsame).trans hs
    have hclean : tree.clean.lookup change.path = s.clean := congrArg Slot.clean hsame
    cases hsclean : s.clean with
    | none =>
      simp only [hlookup, hclean, hsclean, Option.map_none, Option.getD_none, if_true, hmode,
        Option.getD_some]
      refine Or.inr (Or.inl ⟨hsclean, Option.some_ne_none _, ?_⟩)
      rw [slot_insertClean, if_pos rfl, slot_conflict, hlookup]
    | some e =>
      simp only [hlookup, hclean, hsclean, Option.map_some, Option.getD_some]
      split_ifs with hours
      · exact Or.inl hsame
      · exact Or.inr (Or.inr ⟨_, _, _,
          congrArg Slot.conflict ((slot_insertConflict _ _ _).trans (if_pos rfl)),
          ⟨mode, blob⟩, rfl, _, List.mem_cons_self, hours⟩)
  · have hlookup : tree.conflicts.lookup change.path = none := congrArg Slot.conflict hset
    have hclean : tree.clean.lookup change.path = some ⟨mode, blob⟩ := congrArg Slot.clean hset
    simp only [hlookup, hclean, Option.map_some, Option.getD_some, if_true]
    exact Or.inr (Or.inl ⟨hnone, Option.some_ne_none _, hset⟩)
  · obtain rfl := Option.some.inj he
    have hlookup : tree.conflicts.lookup change.path =
        some (.content change.path fileId base sides) := hconflict
    have hmixed := not_sidesAllSame (List.mem_append_left [ConflictSide.new
      (ctx.wsName ++ "#merge-parent-" ++ toString index) blob
      ⟨tree.baseEpoch, workspaceId, index.toUInt64, 0⟩] hside)
      (List.mem_append_right sides List.mem_cons_self) hne
    simp only [hlookup]
    rw [if_neg (by rw [hmixed]; exact Bool.false_ne_true)]
    exact Or.inr (Or.inr ⟨fileId, base, _,
      congrArg Slot.conflict ((slot_insertConflict _ _ _).trans (if_pos rfl)),
      ⟨mode, blob⟩, rfl, side, List.mem_append_left _ hside, hne⟩)

/-- One side of a merge commit. -/
theorem sideAt_injectMergeSideConflicts {patch : PatchSet} {s : Slot} (hs : s.conflict = none)
    (hpatch : ∀ c ∈ patch.changes, WritesTo wsTree c)
    (h : SideAt (wsTree.lookup p) p s (tree.slot p)) :
    SideAt (wsTree.lookup p) p s
      ((injectMergeSideConflicts ctx commit index tree patch).slot p) := by
  rw [injectMergeSideConflicts]
  generalize patch.changes = changes at hpatch ⊢
  induction changes generalizing tree with
  | nil => exact h
  | cons change changes ih =>
    rw [List.foldl_cons]
    refine ih ?_ fun c hc => hpatch c (List.mem_cons_of_mem change hc)
    by_cases hp : change.path = p
    · subst hp
      exact sideAt_injectMergeSide hs (hpatch change List.mem_cons_self) h
    · rwa [slot_injectMergeSide_of_ne hp]

/-- The differences of a side are right about the tree of the commit. -/
theorem writesTo_of_workspacePatch {parent : GitTree} {diff : List DiffEntry} {patch : PatchSet}
    (hd : IsDelta parent wsTree diff) (h : workspacePatch ctx diff = .ok patch) :
    ∀ c ∈ patch.changes, WritesTo wsTree c := fun _ hc hkind =>
  (isPatch_of_workspacePatch hd h).lookup_of_upsert hc hkind

/-- All sides of a merge commit. -/
theorem sideAt_injectSides {replayed : ReplayCommit}
    (hsides : ∀ side ∈ replayed.sides, ∃ parent, IsDelta parent replayed.tree side)
    (hs : (tree.slot p).conflict = none) (h : injectSides ctx tree replayed = .ok tree') :
    SideAt (replayed.tree.lookup p) p (tree.slot p) (tree'.slot p) := by
  have hrun := ExceptRun.foldlM_induction
    (fun (rest : List (List DiffEntry × ℕ)) (t : ConflictTree) =>
      (∀ side ∈ rest, ∃ parent, IsDelta parent replayed.tree side.1) ∧
        SideAt (replayed.tree.lookup p) p (tree.slot p) (t.slot p))
    (fun side rest t t' hinv hstep => ?_) (s := tree) ⟨?_, Or.inl rfl⟩ h
  · exact hrun.2
  · obtain ⟨hrest, hat⟩ := hinv
    obtain ⟨patch, hpatch, ht⟩ := ExceptRun.bind_eq_ok.mp hstep
    obtain rfl := ExceptRun.pure_eq_ok.mp ht
    obtain ⟨parent, hd⟩ := hrest side List.mem_cons_self
    exact ⟨fun other hother => hrest other (List.mem_cons_of_mem side hother),
      sideAt_injectMergeSideConflicts hs (writesTo_of_workspacePatch hd hpatch) hat⟩
  · intro side hside
    exact hsides side.1
      (List.mem_of_getElem? (List.mk_mem_zipIdx_iff_le_and_getElem?_sub.mp hside).2)

end Sides

/-! ### Settled paths -/

section Clean

variable {ctx : ReplayContext} {state state' : ConflictTree} {commit : ReplayCommit}
  {parent : GitTree} {p : Path} {e : MaterializedEntry}

/-- A settled entry comes from the changes of the commit, or is that of the commit's tree where
these leave nothing. -/
theorem replayStep_clean_at (hd : IsDelta parent commit.tree commit.diff)
    (hsides : ∀ side ∈ commit.sides, ∃ other, IsDelta other commit.tree side)
    (h : replayStep ctx state commit = .ok state') (hclean : state'.slot p = ⟨some e, none⟩) :
    ∃ patch s, workspacePatch ctx commit.diff = .ok patch ∧ IsPatch ctx parent commit.tree patch ∧
      StepAt ctx patch p (state.slot p) s ∧ s.conflict = none ∧
      (s.clean = some e ∨ s.clean = none ∧ commit.tree.lookup p = some e) := by
  simp only [replayStep, ExceptRun.bind_eq_ok, ExceptRun.mapError_eq_ok] at h
  obtain ⟨patch, hpatch, ⟨promoted, rest⟩, hpromote, applied, happly, merged, hmerge, h⟩ := h
  have hisPatch := isPatch_of_workspacePatch hd hpatch
  have hstep := stepAt_of_promotedAt (promoteOverlapsToConflicts_at hisPatch.nodup hpromote p)
    (applyUnilateralPatchset_slot (promoteOverlapsToConflicts_nodup hisPatch.nodup hpromote)
      happly p)
  have hbefore : (promoted.slot p).conflict = none ∧ merged.slot p = ⟨some e, none⟩ := by
    split_ifs at h with hconflicts
    · rw [ExceptRun.pure_eq_ok] at h
      rw [← h, slot_restoreConflicts] at hclean
      have hnone : (promoted.slot p).conflict = none :=
        (Option.or_eq_none_iff.mp (congrArg Slot.conflict hclean)).2
      exact ⟨hnone, (restoreSlot_of_settled hnone).symm.trans hclean⟩
    · rw [ExceptRun.pure_eq_ok] at h
      have hnone : promoted.conflicts = ∅ := by simpa [hasConflicts] using hconflicts
      rw [slot_conflict, hnone, Finmap.lookup_empty]
      exact ⟨rfl, h ▸ hclean⟩
  obtain ⟨hnone, hmerged⟩ := hbefore
  rw [restoreSlot_of_settled hnone] at hstep
  have happlied : (applied.slot p).conflict = none := by
    have hslot := applyUnilateralPatchset_slot
      (promoteOverlapsToConflicts_nodup hisPatch.nodup hpromote) happly p
    cases hitem : itemAt (·.path) rest.changes p with
    | none =>
      rw [hitem, Option.elim_none] at hslot
      rw [hslot, hnone]
    | some change =>
      rw [hitem, Option.elim_some, applySlot_of_none hnone] at hslot
      exact settledSlot_conflict hslot
  refine ⟨patch, applied.slot p, hpatch, hisPatch, hstep, happlied, ?_⟩
  rcases hmerged ▸ sideAt_injectSides hsides happlied hmerge with
    hsame | ⟨hempty, -, hset⟩ | ⟨fileId, base, sides, hconflict, -⟩
  · exact Or.inl (congrArg Slot.clean hsame).symm
  · exact Or.inr ⟨hempty, (congrArg Slot.clean hset).symm⟩
  · cases hconflict

end Clean

/-! ### Three-way merges of modes -/

section Modes

/-- The mode of a path in a tree. -/
def modeOf (tree : GitTree) (p : Path) : Option EntryMode := (tree.lookup p).map (·.mode)

/-- The three-way merge of modes, for the old epoch, the new epoch and the workspace. -/
structure MergesModes (oldMode newMode wsMode : Option EntryMode) (mode : EntryMode) : Prop where
  onlyWorkspace : wsMode ≠ oldMode → newMode = oldMode → wsMode = some mode
  onlyEpoch : newMode ≠ oldMode → wsMode = oldMode → newMode = some mode
  agree : wsMode = newMode → wsMode = some mode

/-- The workspace edited a file that the epoch changed, and has neither the old nor the new
content, so that a settled entry holds merged text. -/
def EditsMerged (ctx : ReplayContext) (patch : PatchSet) (p : Path) : Prop :=
  ∃ change ∈ patch.changes, change.path = p ∧ change.kind ≠ .deleted ∧
    (collectRenamePairs patch).sourceOf p = none ∧ ∃ wsBlob base epochBlob,
      change.blob = some wsBlob ∧ ctx.delta.lookup p = some (some base, some epochBlob) ∧
        epochBlob ≠ wsBlob ∧ base ≠ wsBlob

/-- The paths that get the mode of the new epoch: no clash removes its entry, and the workspace
leaves the path alone or the contents are merged. -/
def EpochModeWins (ctx : ReplayContext) (patch : PatchSet) (newEpoch : GitTree) (p : Path) : Prop :=
  cleared ctx patch p (newEpoch.lookup p) ≠ none ∧
    (p ∉ patch.changes.map (·.path) ∨ EditsMerged ctx patch p)

/-- The side whose mode is not taken did not change it alone. -/
def ModesSafe (ctx : ReplayContext) (patch : PatchSet) (newEpoch : GitTree) (p : Path)
    (oldMode newMode wsMode : Option EntryMode) : Prop :=
  (EpochModeWins ctx patch newEpoch p → newMode = oldMode → wsMode = oldMode) ∧
    (¬ EpochModeWins ctx patch newEpoch p → wsMode = oldMode → newMode = oldMode)

theorem mergesModes_of_epoch {oldMode newMode wsMode : Option EntryMode} {mode : EntryMode}
    (h : newMode = some mode) :
    MergesModes oldMode newMode wsMode mode ↔ (newMode = oldMode → wsMode = oldMode) := by
  constructor
  · intro hmerges hnew
    by_contra hws
    exact hws ((hmerges.onlyWorkspace hws hnew).trans (h.symm.trans hnew))
  · intro hsafe
    exact ⟨fun hws hnew => absurd (hsafe hnew) hws, fun _ _ => h, fun hagree => hagree.trans h⟩

theorem mergesModes_of_workspace {oldMode newMode wsMode : Option EntryMode} {mode : EntryMode}
    (h : wsMode = some mode) :
    MergesModes oldMode newMode wsMode mode ↔ (wsMode = oldMode → newMode = oldMode) := by
  constructor
  · intro hmerges hws
    by_contra hnew
    exact hnew ((hmerges.onlyEpoch hnew hws).trans (h.symm.trans hws))
  · intro hsafe
    exact ⟨fun _ _ => h, fun hnew hws => absurd (hsafe hws) hnew, fun _ => h⟩

variable {ctx : ReplayContext} {oldEpoch newEpoch : GitTree} {commit : ReplayCommit}
  {patch : PatchSet} {state' : ConflictTree} {p : Path} {e : MaterializedEntry} {s : Slot}

/-- What is left of an entry is the entry. -/
theorem eq_some_of_cleared {entry : Option MaterializedEntry}
    (h : cleared ctx patch p entry = some e) : entry = some e := by
  rw [cleared] at h
  split_ifs at h
  exact h

/-- A change that the last pass leaves alone is no merge of contents. -/
theorem not_editsMerged_of_passReason (hpatch : IsPatch ctx oldEpoch commit.tree patch)
    {change : FileChange} (hitem : itemAt (·.path) patch.changes p = some change)
    (hreason : PassReason ctx (collectRenamePairs patch) change) :
    ¬ EditsMerged ctx patch p := by
  rintro ⟨other, hother, rfl, hkind, hsource, wsBlob, base, epochBlob, hblob, hdelta, hnew, hold⟩
  obtain rfl := eq_of_itemAt hpatch.nodup hother hitem
  cases hreason with
  | blobless _ blob => simp [blob] at hblob
  | dest _ pair => simp [hsource] at pair
  | source kind => exact hkind kind
  | unchanged _ _ delta => simp [delta] at hdelta
  | same _ _ blob delta =>
    rw [hdelta] at delta
    cases delta
    exact hnew (Option.some.inj (blob.symm.trans hblob))
  | reverted _ _ blob delta =>
    rw [hdelta] at delta
    cases delta
    exact hold (Option.some.inj (blob.symm.trans hblob))
  | bothDeleted kind => exact hkind kind

/-- Where the mode of a settled entry comes from. -/
theorem mode_of_stepAt (hpatch : IsPatch ctx oldEpoch commit.tree patch)
    (hstep : StepAt ctx patch p ⟨newEpoch.lookup p, none⟩ s) (hconflict : s.conflict = none)
    (hclean : s.clean = some e ∨ s.clean = none ∧ commit.tree.lookup p = some e) :
    (EpochModeWins ctx patch newEpoch p → modeOf newEpoch p = some e.mode) ∧
      (¬ EpochModeWins ctx patch newEpoch p → modeOf commit.tree p = some e.mode) := by
  have hmem {change : FileChange} (hitem : itemAt (·.path) patch.changes p = some change) :
      change ∈ patch.changes ∧ change.path = p := ⟨mem_of_itemAt hitem, key_of_itemAt hitem⟩
  have hworkspace (hedits : ¬ EditsMerged ctx patch p) (hp : p ∈ patch.changes.map (·.path))
      (hmode : modeOf commit.tree p = some e.mode) :
      (EpochModeWins ctx patch newEpoch p → modeOf newEpoch p = some e.mode) ∧
        (¬ EpochModeWins ctx patch newEpoch p → modeOf commit.tree p = some e.mode) :=
    ⟨fun hwins => absurd hwins.2 (not_or.mpr ⟨not_not.mpr hp, hedits⟩), fun _ => hmode⟩
  have htree (h : commit.tree.lookup p = some e) : modeOf commit.tree p = some e.mode := by
    rw [modeOf, h]
    rfl
  cases hstep with
  | untouched item =>
    rcases hclean with hsome | ⟨hnone, hentry⟩
    · have hnew : newEpoch.lookup p = some e := eq_some_of_cleared hsome
      refine ⟨fun _ => by rw [modeOf, hnew]; rfl, fun hnot => absurd ⟨?_, ?_⟩ hnot⟩
      · exact fun h => absurd (h.symm.trans hsome) (by simp)
      · exact Or.inl (itemAt_eq_none.mp item)
    · exact ⟨fun hwins => absurd hnone hwins.1, fun _ => htree hentry⟩
  | @renamed change res item plan =>
    obtain ⟨hchange, rfl⟩ := hmem item
    obtain ⟨hkind, wsBlob, source, refOld, epochNew, hblob, hsource, hside, hplan⟩ :=
      renameResolution_eq_some.mp plan
    refine hworkspace ?_ (List.mem_map_of_mem hchange) ?_
    · rintro ⟨-, -, -, -, hnone, -⟩
      rw [hsource] at hnone
      cases hnone
    · rcases hclean with hsome | ⟨-, hentry⟩
      · have hset : res.slot.clean = some e := eq_some_of_cleared hsome
        obtain ⟨mode, blob, hmode, -, hentry⟩ :=
          hpatch.lookup_of_upsert hchange (by rw [hkind]; decide)
        rw [hplan] at hset
        split_ifs at hset
        · obtain rfl := Option.some.inj hset
          rw [modeOf, hentry, hmode]
          rfl
        · cases hset
      · exact htree hentry
  | clash | contested => cases hconflict
  | @resolved change entry item found action =>
    obtain ⟨hchange, rfl⟩ := hmem item
    obtain rfl := Option.some.inj (hclean.resolve_right fun h => absurd h.1 (by simp))
    cases action with
    | @merged wsBlob epochBlob base _ kind pair blob delta hnew hold merge hmode =>
      have hedits : EditsMerged ctx patch change.path :=
        ⟨change, hchange, rfl, kind, pair, wsBlob, base, epochBlob, blob, delta, hnew, hold⟩
      obtain ⟨mode, _, hws, -, hentry⟩ := hpatch.lookup_of_upsert hchange kind
      cases hcleared : cleared ctx patch change.path (newEpoch.lookup change.path) with
      | none =>
        rw [hcleared, hws] at hmode
        refine ⟨fun hwins => absurd hcleared hwins.1, fun _ => ?_⟩
        rw [modeOf, hentry, hmode]
        rfl
      | some kept =>
        have hkept : newEpoch.lookup change.path = some kept := eq_some_of_cleared hcleared
        rw [hcleared] at hmode
        refine ⟨fun _ => ?_, fun hnot => absurd ⟨?_, Or.inr hedits⟩ hnot⟩
        · rw [modeOf, hkept, hmode]
          rfl
        · rw [hcleared]
          exact Option.some_ne_none kept
  | @applied change s' item plan found reason settled slot =>
    obtain ⟨hchange, rfl⟩ := hmem item
    refine hworkspace (not_editsMerged_of_passReason hpatch item reason)
      (List.mem_map_of_mem hchange) ?_
    rcases hclean with hsome | ⟨-, hentry⟩
    · rw [hpatch.settledSlot_eq hchange slot] at hsome
      exact htree hsome
    · exact htree hentry
  | kept _ _ _ _ contested => cases contested

/-- The mode of a settled path is merged right exactly when the side whose mode the step does not
take has not changed it alone. -/
theorem replayStep_mergesModes_iff (hdiff : IsDelta oldEpoch commit.tree commit.diff)
    (hsides : ∀ side ∈ commit.sides, ∃ other, IsDelta other commit.tree side)
    (hpatch : workspacePatch ctx commit.diff = .ok patch)
    (hstep : replayStep ctx (seedConflictTreeFromEpoch newEpoch ctx.baseEpochId) commit =
      .ok state')
    (hclean : state'.slot p = ⟨some e, none⟩) :
    MergesModes (modeOf oldEpoch p) (modeOf newEpoch p) (modeOf commit.tree p) e.mode ↔
      ModesSafe ctx patch newEpoch p (modeOf oldEpoch p) (modeOf newEpoch p)
        (modeOf commit.tree p) := by
  obtain ⟨patch', s, hpatch', hisPatch, hat, hconflict, hentry⟩ :=
    replayStep_clean_at hdiff hsides hstep hclean
  obtain rfl : patch = patch' := Except.ok.inj (hpatch.symm.trans hpatch')
  rw [slot_seed] at hat
  obtain ⟨hepoch, hworkspace⟩ := mode_of_stepAt hisPatch hat hconflict hentry
  by_cases hwins : EpochModeWins ctx patch newEpoch p
  · rw [mergesModes_of_epoch (hepoch hwins)]
    exact ⟨fun h => ⟨fun _ => h, fun hnot => absurd hwins hnot⟩, fun h => h.1 hwins⟩
  · rw [mergesModes_of_workspace (hworkspace hwins)]
    exact ⟨fun h => ⟨fun hwin => absurd hwin hwins, fun _ => h⟩, fun h => h.2 hwins⟩

end Modes

section Samples

private def runPath : Path := ⟨[.lit "start.sh"], by decide⟩

/-- Three lines, of which the first and the last one vary. -/
private def threeLines (first last : UInt8) : Bytes := [first, 10, 45, 10, last, 10]

/-- The workspace edits the last line of blob 1 in blob 3, every other blob edits the first one;
the text driver takes the first line of one version and the last one of the other. -/
private def linesRepo : Repo :=
  { sampleRepo with
    readBlob := fun blob =>
      some (if blob = sampleBlob 1 then threeLines 49 49
        else if blob = sampleBlob 3 then threeLines 49 51 else threeLines 50 49)
    textDriver := fun _ ours _ theirs _ => (.complete, ours.take 4 ++ theirs.drop 4) }

private def modesContext (epochEntry : MaterializedEntry) : ReplayContext :=
  { sampleContext [.modified runPath ⟨.blob, sampleBlob 1⟩ epochEntry] with repo := linesRepo }

/-- The workspace writes the file. -/
private def writesEntry (entry : MaterializedEntry) : ReplayCommit :=
  ⟨sampleBlob 8, sampleTree [(runPath, entry)],
    [.modified runPath ⟨.blob, sampleBlob 1⟩ entry], []⟩

private def replayedStep (epochEntry wsEntry : MaterializedEntry) :
    Except RebaseError ConflictTree :=
  replayStep (modesContext epochEntry)
    (seedConflictTreeFromEpoch (sampleTree [(runPath, epochEntry)]) ⟨sampleBlob 7⟩)
    (writesEntry wsEntry)

private def lastLineEdit : FileChange :=
  ⟨runPath, .modified, some (threeLines 49 51), some (fileIdFromBlob (sampleBlob 1)),
    some (sampleBlob 3), some .blob⟩

/-- The state that a step leaves has the slot that it was computed to have. -/
private theorem exists_slot {x : Except RebaseError ConflictTree} {s : Slot}
    (h : x.toOption.map (·.slot runPath) = some s) :
    ∃ state', x = .ok state' ∧ state'.slot runPath = s := by
  cases x with
  | error _ => cases h
  | ok state' => exact ⟨state', rfl, Option.some.inj h⟩

/-- The epoch makes the file executable, and both edit it. -/
theorem replayStep_mergesModes_epoch : ∃ state',
    replayedStep ⟨.blobExecutable, sampleBlob 2⟩ ⟨.blob, sampleBlob 3⟩ = .ok state' ∧
      state'.slot runPath = ⟨some ⟨.blobExecutable, sampleBlob 99⟩, none⟩ ∧
      MergesModes (modeOf (sampleTree [(runPath, ⟨.blob, sampleBlob 1⟩)]) runPath)
        (modeOf (sampleTree [(runPath, ⟨.blobExecutable, sampleBlob 2⟩)]) runPath)
        (modeOf (sampleTree [(runPath, ⟨.blob, sampleBlob 3⟩)]) runPath)
        .blobExecutable := by
  obtain ⟨state', hstep, hslot⟩ := exists_slot
    (x := replayedStep ⟨.blobExecutable, sampleBlob 2⟩ ⟨.blob, sampleBlob 3⟩)
    (s := ⟨some ⟨.blobExecutable, sampleBlob 99⟩, none⟩) (by decide)
  refine ⟨state', hstep, hslot, ?_⟩
  have hdiff : IsDelta (sampleTree [(runPath, ⟨.blob, sampleBlob 1⟩)])
      (writesEntry ⟨.blob, sampleBlob 3⟩).tree (writesEntry ⟨.blob, sampleBlob 3⟩).diff := by
    decide
  have hpatch : workspacePatch (modesContext ⟨.blobExecutable, sampleBlob 2⟩)
      (writesEntry ⟨.blob, sampleBlob 3⟩).diff =
        .ok ⟨⟨"w"⟩, ⟨sampleBlob 7⟩, [lastLineEdit]⟩ := by rfl
  refine (replayStep_mergesModes_iff hdiff (by simp [writesEntry]) hpatch hstep hslot).mpr ?_
  refine ⟨fun _ hnew => absurd hnew (by decide), fun hnot => absurd ⟨by decide, Or.inr ?_⟩ hnot⟩
  exact ⟨lastLineEdit, List.mem_cons_self, rfl, by decide, by decide, sampleBlob 3, sampleBlob 1,
    sampleBlob 2, rfl, by decide, by decide, by decide⟩

/-- The executable bit of the workspace is lost when the texts are merged, and that of the epoch
when the workspace makes the same edit. -/
theorem not_replayStep_mergesModes :
    (∃ state', replayedStep ⟨.blob, sampleBlob 2⟩ ⟨.blobExecutable, sampleBlob 3⟩ = .ok state' ∧
      state'.slot runPath = ⟨some ⟨.blob, sampleBlob 99⟩, none⟩ ∧
      ¬ MergesModes (some .blob) (some .blob) (some .blobExecutable) .blob) ∧
    ∃ state', replayedStep ⟨.blobExecutable, sampleBlob 2⟩ ⟨.blob, sampleBlob 2⟩ = .ok state' ∧
      state'.slot runPath = ⟨some ⟨.blob, sampleBlob 2⟩, none⟩ ∧
      ¬ MergesModes (some .blob) (some .blobExecutable) (some .blob) .blob := by
  constructor
  · obtain ⟨state', hstep, hslot⟩ := exists_slot
      (x := replayedStep ⟨.blob, sampleBlob 2⟩ ⟨.blobExecutable, sampleBlob 3⟩)
      (s := ⟨some ⟨.blob, sampleBlob 99⟩, none⟩) (by decide)
    refine ⟨state', hstep, hslot, fun h => ?_⟩
    exact absurd (h.onlyWorkspace (by decide) rfl) (by decide)
  · obtain ⟨state', hstep, hslot⟩ := exists_slot
      (x := replayedStep ⟨.blobExecutable, sampleBlob 2⟩ ⟨.blob, sampleBlob 2⟩)
      (s := ⟨some ⟨.blob, sampleBlob 2⟩, none⟩) (by decide)
    refine ⟨state', hstep, hslot, fun h => ?_⟩
    exact absurd (h.onlyEpoch (by decide) rfl) (by decide)

end Samples

end Maw
