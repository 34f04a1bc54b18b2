import Maw.Core.Conflict
import Maw.Library.ExceptRun
import Maw.Library.PointwiseFold

/-!
# Folding a patch set into a conflict tree

The changes of one workspace are applied to a conflict tree one after the other. A change at a
settled path edits the entry; a change at a contested path updates or dissolves the conflict.

## Main definitions

* `applyUnilateralPatchset` — apply all changes of a patch set.
* `applySlot` — the effect of one change on what the tree holds at its path.

## Main results

* `applyOne_at` — a change acts on its own path only, as `applySlot` says.
* `applyUnilateralPatchset_slot` — the effect of a patch set at one path.
-/

open PointwiseFold

namespace Maw

/-- Why a patch set could not be applied. -/
inductive ApplyError
  | epochMismatch (treeBase patchEpoch : EpochId)
  | missingBlob (path : Path) (kind : ChangeKind)
  | unexpectedAddOnConflict (path : Path) (existingShape : String)
  | unexpectedModifyOnAddAdd (path : Path)
  | unhandledConflictShape (path : Path) (shape : String)
  deriving DecidableEq, Repr

namespace FileChange

/-- The blob of a change that must have one. -/
def requireBlob (change : FileChange) : Except ApplyError GitOid :=
  match change.blob with
  | some blob => pure blob
  | none => throw (.missingBlob change.path change.kind)

/-- The mode of a file the tree did not have. -/
def inferModeForNewFile (change : FileChange) : EntryMode := change.mode.getD .blob

end FileChange

open FileChange in
def applyAdded (tree : ConflictTree) (change : FileChange) : Except ApplyError ConflictTree := do
  let blob ← change.requireBlob
  pure (tree.insertClean change.path ⟨inferModeForNewFile change, blob⟩)

open FileChange in
/-- An entry keeps its mode unless the change has one. -/
def applyModified (tree : ConflictTree) (change : FileChange) :
    Except ApplyError ConflictTree := do
  let blob ← change.requireBlob
  match tree.clean.lookup change.path with
  | some entry => pure (tree.insertClean change.path ⟨change.mode.getD entry.mode, blob⟩)
  | none => pure (tree.insertClean change.path ⟨inferModeForNewFile change, blob⟩)

def applyDeleted (tree : ConflictTree) (change : FileChange) : ConflictTree :=
  tree.removeClean change.path

/-- All sides carry one blob, and there is a side. -/
def sidesConverged : List ConflictSide → Bool
  | [] => false
  | first :: rest => (first :: rest).all fun s => s.content = first.content

/-- The workspace's blob replaces the content of every side. -/
def replaceSides (sides : List ConflictSide) (blob : GitOid) : List ConflictSide :=
  sides.map fun s => { s with content := blob }

/-- A change at a path with a content conflict; the conflict has been taken out of the tree. -/
def handleContent (tree : ConflictTree) (path : Path) (fileId : FileId) (base : Option GitOid)
    (sides : List ConflictSide) (change : FileChange) : Except ApplyError ConflictTree :=
  match change.kind with
  | .added | .modified => do
    let blob ← change.requireBlob
    let sides := replaceSides sides blob
    if sidesConverged sides then
      pure (tree.insertClean path ⟨.blob, blob⟩)
    else
      pure (tree.insertConflict (.content path fileId base sides))
  | .deleted => pure tree

def handleAddAdd (tree : ConflictTree) (path : Path) (sides : List ConflictSide)
    (change : FileChange) : Except ApplyError ConflictTree :=
  match change.kind with
  | .added => do
    let blob ← change.requireBlob
    let sides := replaceSides sides blob
    if sidesConverged sides then
      pure (tree.insertClean path ⟨.blob, blob⟩)
    else
      pure (tree.insertConflict (.addAdd path sides))
  | .modified => throw (.unexpectedModifyOnAddAdd path)
  | .deleted => pure tree

/-- The modifier takes the new blob; the deleter stays. -/
def handleModifyDelete (tree : ConflictTree) (path : Path) (fileId : FileId)
    (modifier deleter : ConflictSide) (renameHint dfHint : Option Path) (change : FileChange) :
    Except ApplyError ConflictTree :=
  match change.kind with
  | .added | .modified => do
    let blob ← change.requireBlob
    pure (tree.insertConflict (.modifyDelete path fileId { modifier with content := blob } deleter
      blob renameHint dfHint))
  | .deleted => pure tree

/-- A change at a contested path: the conflict is taken out and put back as the change left it. -/
def applyOneToConflict (tree : ConflictTree) (existing : Conflict) (change : FileChange) :
    Except ApplyError ConflictTree :=
  let taken := tree.removeConflict change.path
  match existing with
  | .content path fileId base sides => handleContent taken path fileId base sides change
  | .addAdd path sides => handleAddAdd taken path sides change
  | .modifyDelete path fileId modifier deleter _ renameHint dfHint =>
    handleModifyDelete taken path fileId modifier deleter renameHint dfHint change
  | .divergentRename _ original _ =>
    throw (.unhandledConflictShape original existing.variantName)

/-- Apply one change. -/
def applyOne (tree : ConflictTree) (change : FileChange) : Except ApplyError ConflictTree :=
  match tree.conflicts.lookup change.path with
  | some existing => applyOneToConflict tree existing change
  | none =>
    match change.kind with
    | .added => applyAdded tree change
    | .modified => applyModified tree change
    | .deleted => pure (applyDeleted tree change)

/-- Apply the changes of a patch set made against the tree's epoch. -/
def applyUnilateralPatchset (tree : ConflictTree) (patch : PatchSet) :
    Except ApplyError ConflictTree :=
  if patch.epoch ≠ tree.baseEpoch then throw (.epochMismatch tree.baseEpoch patch.epoch)
  else patch.changes.foldlM applyOne tree

/-! ### The effect at one path -/

section Slot

open ConflictTree FileChange

theorem requireBlob_eq_ok {change : FileChange} {blob : GitOid} :
    change.requireBlob = .ok blob ↔ change.blob = some blob := by
  unfold requireBlob
  cases change.blob <;> simp

/-- Sides that all took one blob have converged, unless there are none. -/
theorem sidesConverged_replaceSides (sides : List ConflictSide) (blob : GitOid) :
    sidesConverged (replaceSides sides blob) = !sides.isEmpty := by
  cases sides with
  | nil => rfl
  | cons s sides => simp [replaceSides, sidesConverged]

/-- What a change leaves at a path that is not in conflict. -/
def settledSlot (change : FileChange) (entry : Option MaterializedEntry) :
    Except ApplyError Slot :=
  match change.kind with
  | .added => do
    let blob ← change.requireBlob
    pure ⟨some ⟨change.mode.getD .blob, blob⟩, none⟩
  | .modified => do
    let blob ← change.requireBlob
    pure ⟨some ⟨change.mode.getD (entry.elim .blob (·.mode)), blob⟩, none⟩
  | .deleted => pure ⟨none, none⟩

theorem settledSlot_of_deleted {change : FileChange} {entry : Option MaterializedEntry}
    {s : Slot} (hkind : change.kind = .deleted) (h : settledSlot change entry = .ok s) :
    s = ⟨none, none⟩ := by
  simp only [settledSlot, hkind, ExceptRun.pure_eq_ok] at h
  exact h.symm

/-- An applied addition or modification leaves its blob, in its own mode if it has one. -/
theorem settledSlot_of_upsert {change : FileChange} {entry : Option MaterializedEntry}
    {s : Slot} (hkind : change.kind ≠ .deleted) (h : settledSlot change entry = .ok s) :
    ∃ blob mode, change.blob = some blob ∧ s = ⟨some ⟨mode, blob⟩, none⟩ ∧
      ∀ m, change.mode = some m → mode = m := by
  cases hk : change.kind with
  | deleted => exact absurd hk hkind
  | _ =>
    simp only [settledSlot, hk, ExceptRun.bind_eq_ok, requireBlob_eq_ok,
      ExceptRun.pure_eq_ok] at h
    obtain ⟨blob, hblob, rfl⟩ := h
    exact ⟨blob, _, hblob, rfl, fun m hm => by rw [hm]; rfl⟩

theorem settledSlot_conflict {change : FileChange} {entry : Option MaterializedEntry} {s : Slot}
    (h : settledSlot change entry = .ok s) : s.conflict = none := by
  by_cases hkind : change.kind = .deleted
  · rw [settledSlot_of_deleted hkind h]
  · obtain ⟨blob, mode, -, rfl, -⟩ := settledSlot_of_upsert hkind h
    rfl

/-- What a change leaves at a contested path. -/
def contestedSlot (change : FileChange) (entry : Option MaterializedEntry) :
    Conflict → Except ApplyError Slot
  | .content p f base sides =>
    match change.kind with
    | .deleted => pure ⟨entry, none⟩
    | _ => do
      let blob ← change.requireBlob
      if sides = [] then pure ⟨entry, some (.content p f base [])⟩
      else pure ⟨some ⟨.blob, blob⟩, none⟩
  | .addAdd p sides =>
    match change.kind with
    | .deleted => pure ⟨entry, none⟩
    | .modified => throw (.unexpectedModifyOnAddAdd p)
    | .added => do
      let blob ← change.requireBlob
      if sides = [] then pure ⟨entry, some (.addAdd p [])⟩
      else pure ⟨some ⟨.blob, blob⟩, none⟩
  | .modifyDelete p f modifier deleter _ renameHint dfHint =>
    match change.kind with
    | .deleted => pure ⟨entry, none⟩
    | _ => do
      let blob ← change.requireBlob
      pure ⟨entry, some (.modifyDelete p f { modifier with content := blob } deleter blob
        renameHint dfHint)⟩
  | .divergentRename _ original _ =>
    throw (.unhandledConflictShape original "divergent_rename")

/-- What a change leaves at its path: the entry and the conflict there. -/
def applySlot (change : FileChange) (s : Slot) : Except ApplyError Slot :=
  match s.conflict with
  | none => settledSlot change s.clean
  | some c => contestedSlot change s.clean c

theorem applySlot_of_none {change : FileChange} {s : Slot} (h : s.conflict = none) :
    applySlot change s = settledSlot change s.clean := by
  rw [applySlot, h]

theorem applySlot_of_some {change : FileChange} {s : Slot} {c : Conflict}
    (h : s.conflict = some c) : applySlot change s = contestedSlot change s.clean c := by
  rw [applySlot, h]

/-- One application step, seen path by path: it acts on its own path as `applySlot` and leaves
every other path and the epoch alone. -/
structure AppliesAt (change : FileChange) (tree tree' : ConflictTree) : Prop where
  baseEpoch : tree'.baseEpoch = tree.baseEpoch
  self : applySlot change (tree.slot change.path) = .ok (tree'.slot change.path)
  other : ∀ q, change.path ≠ q → tree'.slot q = tree.slot q

variable {tree tree' : ConflictTree} {change : FileChange}

private theorem appliesAt_insertClean {e : MaterializedEntry}
    (hself : applySlot change (tree.slot change.path) = .ok ⟨some e, none⟩)
    (hnone : tree.conflicts.lookup change.path = none) :
    AppliesAt change tree (tree.insertClean change.path e) where
  baseEpoch := rfl
  self := by rw [hself, slot_insertClean, if_pos rfl, slot_conflict, hnone]
  other q hq := by rw [slot_insertClean, if_neg hq.symm]

private theorem appliesAt_collapse {e : MaterializedEntry}
    (hself : applySlot change (tree.slot change.path) = .ok ⟨some e, none⟩) :
    AppliesAt change tree ((tree.removeConflict change.path).insertClean change.path e) where
  baseEpoch := rfl
  self := by rw [hself, slot_insertClean, if_pos rfl, slot_removeConflict, if_pos rfl]
  other q hq := by rw [slot_insertClean, if_neg hq.symm, slot_removeConflict, if_neg hq.symm]

private theorem appliesAt_dissolve
    (hself : applySlot change (tree.slot change.path) = .ok ⟨(tree.slot change.path).clean, none⟩) :
    AppliesAt change tree (tree.removeConflict change.path) where
  baseEpoch := rfl
  self := by rw [hself, slot_removeConflict, if_pos rfl]
  other q hq := by rw [slot_removeConflict, if_neg hq.symm]

private theorem appliesAt_refresh {c : Conflict} (hc : c.path = change.path)
    (hself : applySlot change (tree.slot change.path) =
      .ok ⟨(tree.slot change.path).clean, some c⟩) :
    AppliesAt change tree ((tree.removeConflict change.path).insertConflict c) where
  baseEpoch := rfl
  self := by rw [hself, slot_insertConflict, if_pos hc.symm, slot_removeConflict, if_pos rfl]
  other q hq := by
    rw [slot_insertConflict, if_neg (hc ▸ hq.symm), slot_removeConflict, if_neg hq.symm]

private theorem appliesAt_settled (hnone : tree.conflicts.lookup change.path = none)
    (h : applyOne tree change = .ok tree') : AppliesAt change tree tree' := by
  simp only [applyOne, hnone] at h
  have hslot : (tree.slot change.path).conflict = none := hnone
  cases hk : change.kind with
  | added =>
    simp only [hk, applyAdded, ExceptRun.bind_eq_ok, ExceptRun.pure_eq_ok] at h
    obtain ⟨blob, hblob, rfl⟩ := h
    refine appliesAt_insertClean ?_ hnone
    rw [applySlot_of_none hslot, settledSlot, hk, hblob]
    rfl
  | modified =>
    simp only [hk, applyModified, ExceptRun.bind_eq_ok] at h
    obtain ⟨blob, hblob, h⟩ := h
    cases he : tree.clean.lookup change.path with
    | some entry =>
      simp only [he, ExceptRun.pure_eq_ok] at h
      subst h
      refine appliesAt_insertClean ?_ hnone
      rw [applySlot_of_none hslot, settledSlot, hk, hblob, slot_clean, he]
      rfl
    | none =>
      simp only [he, ExceptRun.pure_eq_ok] at h
      subst h
      refine appliesAt_insertClean ?_ hnone
      rw [applySlot_of_none hslot, settledSlot, hk, hblob, slot_clean, he]
      rfl
  | deleted =>
    simp only [hk, ExceptRun.pure_eq_ok] at h
    subst h
    exact {
      baseEpoch := rfl
      self := by
        rw [applyDeleted, slot_removeClean, if_pos rfl, applySlot_of_none hslot, settledSlot, hk,
          hslot]
        rfl
      other := fun q hq => by rw [applyDeleted, slot_removeClean, if_neg hq.symm] }

private theorem appliesAt_contested {existing : Conflict}
    (hsome : tree.conflicts.lookup change.path = some existing)
    (h : applyOne tree change = .ok tree') : AppliesAt change tree tree' := by
  simp only [applyOne, hsome] at h
  have hslot : (tree.slot change.path).conflict = some existing := hsome
  have hpath : existing.path = change.path := tree.keyed _ _ hsome
  cases existing with
  | content p f base sides =>
    obtain rfl : p = change.path := hpath
    cases hk : change.kind with
    | deleted =>
      simp only [applyOneToConflict, handleContent, hk, ExceptRun.pure_eq_ok] at h
      subst h
      refine appliesAt_dissolve ?_
      rw [applySlot_of_some hslot, contestedSlot, hk]
      rfl
    | _ =>
      simp only [applyOneToConflict, handleContent, hk, ExceptRun.bind_eq_ok,
        sidesConverged_replaceSides] at h
      obtain ⟨blob, hblob, h⟩ := h
      cases sides with
      | nil =>
        simp only [List.isEmpty_nil, Bool.not_true, Bool.false_eq_true, if_false,
          ExceptRun.pure_eq_ok] at h
        subst h
        refine appliesAt_refresh rfl ?_
        rw [applySlot_of_some hslot, contestedSlot, hk, hblob]
        rfl
      | cons side sides =>
        simp only [List.isEmpty_cons, Bool.not_false, if_true, ExceptRun.pure_eq_ok] at h
        subst h
        refine appliesAt_collapse ?_
        rw [applySlot_of_some hslot, contestedSlot, hk, hblob]
        rfl
  | addAdd p sides =>
    obtain rfl : p = change.path := hpath
    cases hk : change.kind with
    | deleted =>
      simp only [applyOneToConflict, handleAddAdd, hk, ExceptRun.pure_eq_ok] at h
      subst h
      refine appliesAt_dissolve ?_
      rw [applySlot_of_some hslot, contestedSlot, hk]
      rfl
    | modified => simp [applyOneToConflict, handleAddAdd, hk] at h
    | added =>
      simp only [applyOneToConflict, handleAddAdd, hk, ExceptRun.bind_eq_ok,
        sidesConverged_replaceSides] at h
      obtain ⟨blob, hblob, h⟩ := h
      cases sides with
      | nil =>
        simp only [List.isEmpty_nil, Bool.not_true, Bool.false_eq_true, if_false,
          ExceptRun.pure_eq_ok] at h
        subst h
        refine appliesAt_refresh rfl ?_
        rw [applySlot_of_some hslot, contestedSlot, hk, hblob]
        rfl
      | cons side sides =>
        simp only [List.isEmpty_cons, Bool.not_false, if_true, ExceptRun.pure_eq_ok] at h
        subst h
        refine appliesAt_collapse ?_
        rw [applySlot_of_some hslot, contestedSlot, hk, hblob]
        rfl
  | modifyDelete p f modifier deleter content renameHint dfHint =>
    obtain rfl : p = change.path := hpath
    cases hk : change.kind with
    | deleted =>
      simp only [applyOneToConflict, handleModifyDelete, hk, ExceptRun.pure_eq_ok] at h
      subst h
      refine appliesAt_dissolve ?_
      rw [applySlot_of_some hslot, contestedSlot, hk]
      rfl
    | _ =>
      simp only [applyOneToConflict, handleModifyDelete, hk, ExceptRun.bind_eq_ok,
        ExceptRun.pure_eq_ok] at h
      obtain ⟨blob, hblob, rfl⟩ := h
      refine appliesAt_refresh rfl ?_
      rw [applySlot_of_some hslot, contestedSlot, hk, hblob]
      rfl
  | divergentRename f original destinations => simp [applyOneToConflict] at h

/-- A change acts on its own path only, as `applySlot` says. -/
theorem applyOne_at (h : applyOne tree change = .ok tree') : AppliesAt change tree tree' := by
  cases hc : tree.conflicts.lookup change.path with
  | none => exact appliesAt_settled hc h
  | some existing => exact appliesAt_contested hc h

theorem applyUnilateralPatchset_eq_ok {patch : PatchSet} :
    applyUnilateralPatchset tree patch = .ok tree' ↔
      patch.epoch = tree.baseEpoch ∧ patch.changes.foldlM applyOne tree = .ok tree' := by
  unfold applyUnilateralPatchset
  split_ifs with h
  · simp [h]
  · simp [not_not.mp h]

/-- A patch set that changes each path at most once leaves at a path what its change of that
path leaves there. -/
theorem applyUnilateralPatchset_slot {patch : PatchSet}
    (hnodup : (patch.changes.map (·.path)).Nodup)
    (h : applyUnilateralPatchset tree patch = .ok tree') (p : Path) :
    (itemAt (·.path) patch.changes p).elim (tree'.slot p = tree.slot p) fun change =>
      applySlot change (tree.slot p) = .ok (tree'.slot p) :=
  foldlM_view ConflictTree.slot (fun c : FileChange => c.path)
    (fun change s s' => applySlot change s = .ok s')
    (fun _ _ _ hstep => (applyOne_at hstep).self)
    (fun _ _ _ hstep k hk => (applyOne_at hstep).other k hk)
    hnodup (applyUnilateralPatchset_eq_ok.mp h).2 p

end Slot

end Maw
