import Mathlib.Data.List.Dedup
import Maw.Rebase.Overlap

/-!
# Renames of the workspace

A patch set has a rename as a deletion and a modification with one file identity. If the epoch
changed the source of such a pair, its change follows the file to the destination: the epoch's
blob when the workspace left the content alone, a conflict when it did not.

## Main definitions

* `IsRenamePair` — the only deletion and the only modification with one file identity.
* `collectRenamePairs` — the index of all pairs of a patch set.
* `planRenameOverlap`, `applyRenameResolution` — the plan for one destination, and carrying it
  out.
* `applyRenameResolutions` — all plans of a patch set.

## Main results

* `sourceOf_eq_some`, `isSource_iff` — what the index knows.
* `applyRenameResolutions_slot`, `applyRenameResolutions_changes` — the effect on the tree and
  on the patch.
-/

open PointwiseFold

namespace Maw

/-- The paths of the changes of one kind with one file identity. -/
def pathsWith (kind : ChangeKind) (fileId : FileId) (changes : List FileChange) : List Path :=
  (changes.filter fun c => c.kind = kind ∧ c.fileId = some fileId).map (·.path)

/-- The two paths are those of the only deletion and the only modification with some file
identity. -/
def IsRenamePair (changes : List FileChange) (source dest : Path) : Prop :=
  ∃ fileId, pathsWith .deleted fileId changes = [source] ∧
    pathsWith .modified fileId changes = [dest] ∧ source ≠ dest

/-- The rename pairs of a patch set: from destination to source, and the sources. -/
structure RenamePairs where
  modifiedToSource : List (Path × Path)
  deletedFromPaths : List Path
  deriving DecidableEq, Repr

namespace RenamePairs

/-- The source of the pair with this destination. -/
def sourceOf (pairs : RenamePairs) (dest : Path) : Option Path :=
  pairs.modifiedToSource.lookup dest

def isSource (pairs : RenamePairs) (p : Path) : Bool := p ∈ pairs.deletedFromPaths

end RenamePairs

/-- The pair, as destination and source, of one file identity. -/
def renamePairOf (changes : List FileChange) (fileId : FileId) : Option (Path × Path) :=
  match pathsWith .deleted fileId changes, pathsWith .modified fileId changes with
  | [source], [dest] => if source ≠ dest then some (dest, source) else none
  | _, _ => none

/-- Group the changes by file identity and keep the groups that are pairs. -/
def collectRenamePairs (patch : PatchSet) : RenamePairs :=
  let fileIds := (patch.changes.filterMap (·.fileId)).dedup
  let pairs := fileIds.filterMap (renamePairOf patch.changes)
  ⟨pairs, pairs.map Prod.snd⟩

section Pairs

theorem renamePairOf_eq_some {changes : List FileChange} {fileId : FileId} {source dest : Path} :
    renamePairOf changes fileId = some (dest, source) ↔
      pathsWith .deleted fileId changes = [source] ∧
        pathsWith .modified fileId changes = [dest] ∧ source ≠ dest := by
  unfold renamePairOf
  split
  · rename_i s d hs hd
    rw [hs, hd]
    by_cases hne : s ≠ d
    · rw [if_pos hne]
      simp only [Option.some.injEq, Prod.mk.injEq, List.cons.injEq, and_true]
      constructor
      · rintro ⟨rfl, rfl⟩
        exact ⟨rfl, rfl, hne⟩
      · rintro ⟨rfl, rfl, -⟩
        exact ⟨rfl, rfl⟩
    · rw [if_neg hne]
      simp only [reduceCtorEq, List.cons.injEq, and_true, false_iff]
      rintro ⟨rfl, rfl, hne'⟩
      exact hne hne'
  · rename_i hno
    simp only [reduceCtorEq, false_iff]
    rintro ⟨hs, hd, -⟩
    exact hno _ _ hs hd

theorem mem_pathsWith {kind : ChangeKind} {fileId : FileId} {changes : List FileChange}
    {p : Path} : p ∈ pathsWith kind fileId changes ↔
      ∃ c ∈ changes, c.path = p ∧ c.kind = kind ∧ c.fileId = some fileId := by
  simp only [pathsWith, List.mem_map, List.mem_filter, decide_eq_true_eq]
  constructor
  · rintro ⟨c, ⟨hc, hkind, hid⟩, rfl⟩
    exact ⟨c, hc, rfl, hkind, hid⟩
  · rintro ⟨c, hc, rfl, hkind, hid⟩
    exact ⟨c, ⟨hc, hkind, hid⟩, rfl⟩

theorem mem_modifiedToSource {patch : PatchSet} {source dest : Path} :
    (dest, source) ∈ (collectRenamePairs patch).modifiedToSource ↔
      IsRenamePair patch.changes source dest := by
  simp only [collectRenamePairs, List.mem_filterMap, List.mem_dedup, renamePairOf_eq_some]
  constructor
  · rintro ⟨fileId, -, h⟩
    exact ⟨fileId, h⟩
  · rintro ⟨fileId, h⟩
    have hmem : source ∈ pathsWith .deleted fileId patch.changes := h.1 ▸ List.mem_cons_self
    obtain ⟨c, hc, -, -, hid⟩ := mem_pathsWith.mp hmem
    exact ⟨fileId, ⟨c, hc, hid⟩, h⟩

variable {patch : PatchSet}

/-- The changes of a pair. -/
theorem IsRenamePair.changes {changes : List FileChange} {source dest : Path}
    (h : IsRenamePair changes source dest) :
    ∃ d ∈ changes, ∃ m ∈ changes, d.path = source ∧ d.kind = .deleted ∧ m.path = dest ∧
      m.kind = .modified ∧ d.fileId = m.fileId := by
  obtain ⟨fileId, hs, hd, -⟩ := h
  have hmems : source ∈ pathsWith .deleted fileId changes := hs ▸ List.mem_cons_self
  have hmemd : dest ∈ pathsWith .modified fileId changes := hd ▸ List.mem_cons_self
  obtain ⟨d, hdc, hdp, hdk, hdi⟩ := mem_pathsWith.mp hmems
  obtain ⟨m, hmc, hmp, hmk, hmi⟩ := mem_pathsWith.mp hmemd
  exact ⟨d, hdc, m, hmc, hdp, hdk, hmp, hmk, hdi.trans hmi.symm⟩

theorem IsRenamePair.kind_of_source {changes : List FileChange} {source dest : Path}
    (h : IsRenamePair changes source dest) (hnodup : (changes.map (·.path)).Nodup)
    {c : FileChange} (hc : c ∈ changes) (hpath : c.path = source) : c.kind = .deleted := by
  obtain ⟨d, hd, m, hm, hdp, hdk, -⟩ := h.changes
  rw [List.inj_on_of_nodup_map hnodup hc hd (hpath.trans hdp.symm)]
  exact hdk

theorem IsRenamePair.kind_of_dest {changes : List FileChange} {source dest : Path}
    (h : IsRenamePair changes source dest) (hnodup : (changes.map (·.path)).Nodup)
    {c : FileChange} (hc : c ∈ changes) (hpath : c.path = dest) : c.kind = .modified := by
  obtain ⟨d, hd, m, hm, -, -, hmp, hmk, -⟩ := h.changes
  rw [List.inj_on_of_nodup_map hnodup hc hm (hpath.trans hmp.symm)]
  exact hmk

/-- A source belongs to one pair. -/
theorem IsRenamePair.dest_unique (hnodup : (patch.changes.map (·.path)).Nodup)
    {source d d' : Path} (h : IsRenamePair patch.changes source d)
    (h' : IsRenamePair patch.changes source d') : d = d' := by
  obtain ⟨fileId, hs, hd, -⟩ := h
  obtain ⟨fileId', hs', hd', -⟩ := h'
  have hmem : source ∈ pathsWith .deleted fileId patch.changes := hs ▸ List.mem_cons_self
  have hmem' : source ∈ pathsWith .deleted fileId' patch.changes := hs' ▸ List.mem_cons_self
  obtain ⟨c, hc, hcp, -, hid⟩ := mem_pathsWith.mp hmem
  obtain ⟨c', hc', hcp', -, hid'⟩ := mem_pathsWith.mp hmem'
  obtain rfl : c = c' := List.inj_on_of_nodup_map hnodup hc hc' (hcp.trans hcp'.symm)
  obtain rfl : fileId = fileId' := Option.some.inj (hid.symm.trans hid')
  simpa using hd.symm.trans hd'

/-- A destination belongs to one pair. -/
theorem IsRenamePair.source_unique (hnodup : (patch.changes.map (·.path)).Nodup)
    {s s' dest : Path} (h : IsRenamePair patch.changes s dest)
    (h' : IsRenamePair patch.changes s' dest) : s = s' := by
  obtain ⟨fileId, hs, hd, -⟩ := h
  obtain ⟨fileId', hs', hd', -⟩ := h'
  have hmem : dest ∈ pathsWith .modified fileId patch.changes := hd ▸ List.mem_cons_self
  have hmem' : dest ∈ pathsWith .modified fileId' patch.changes := hd' ▸ List.mem_cons_self
  obtain ⟨c, hc, hcp, -, hid⟩ := mem_pathsWith.mp hmem
  obtain ⟨c', hc', hcp', -, hid'⟩ := mem_pathsWith.mp hmem'
  obtain rfl : c = c' := List.inj_on_of_nodup_map hnodup hc hc' (hcp.trans hcp'.symm)
  obtain rfl : fileId = fileId' := Option.some.inj (hid.symm.trans hid')
  simpa using hs.symm.trans hs'

/-- The index finds the source of exactly the destinations of pairs. -/
theorem sourceOf_eq_some (hnodup : (patch.changes.map (·.path)).Nodup) {source dest : Path} :
    (collectRenamePairs patch).sourceOf dest = some source ↔
      IsRenamePair patch.changes source dest := by
  have hpair {s : Path} (h : (collectRenamePairs patch).sourceOf dest = some s) :
      IsRenamePair patch.changes s dest := by
    obtain ⟨l₁, l₂, hl, -⟩ := List.lookup_eq_some_iff.mp h
    exact mem_modifiedToSource.mp (hl ▸ List.mem_append_right l₁ List.mem_cons_self)
  constructor
  · exact hpair
  · intro h
    have hmem := mem_modifiedToSource.mpr h
    cases hlookup : (collectRenamePairs patch).sourceOf dest with
    | none => simpa using List.lookup_eq_none_iff.mp hlookup _ hmem
    | some s => rw [IsRenamePair.source_unique hnodup (hpair hlookup) h]

/-- The index knows exactly the sources of pairs. -/
theorem isSource_iff {p : Path} :
    (collectRenamePairs patch).isSource p = true ↔
      ∃ dest, IsRenamePair patch.changes p dest := by
  rw [RenamePairs.isSource, decide_eq_true_iff, collectRenamePairs, List.mem_map]
  simp only [← mem_modifiedToSource]
  constructor
  · rintro ⟨⟨dest, source⟩, hmem, rfl⟩
    exact ⟨dest, hmem⟩
  · rintro ⟨dest, hmem⟩
    exact ⟨(dest, p), hmem, rfl⟩

end Pairs

/-- A planned resolution at the destination of a pair: the epoch's blob follows the rename, or
the destination is contested. -/
inductive RenameResolution
  | follow (toPath : Path) (epochNewBlob : GitOid) (mode : EntryMode)
  | conflict (toPath : Path) (conflict : Conflict)
  deriving DecidableEq

namespace RenameResolution

def toPath : RenameResolution → Path
  | follow p _ _ | conflict p _ => p

end RenameResolution

section Plan

variable (ctx : ReplayContext)

/-- Plan the destination of a pair whose source the epoch changed from `epochOld` to `epochNew`.
When the epoch deleted the source there is nothing to plan. -/
def planRenameOverlap (workspaceId : WorkspaceId) (change : FileChange) (wsBlob : GitOid)
    (epochOld epochNew : Option GitOid) : Option RenameResolution :=
  match epochNew with
  | none => none
  | some epochNewBlob =>
    if epochOld = some wsBlob then
      some (.follow change.path epochNewBlob (change.mode.getD .blob))
    else
      some (.conflict change.path (contentConflict ctx workspaceId change epochNewBlob wsBlob
        epochOld))

/-- The plan for one change of a patch set with these pairs. -/
def renameResolution (workspaceId : WorkspaceId) (pairs : RenamePairs) (change : FileChange) :
    Option RenameResolution :=
  if change.kind = .modified then do
    let wsBlob ← change.blob
    let source ← pairs.sourceOf change.path
    let (refOldFrom, refNewFrom) ← ctx.delta.lookup source
    planRenameOverlap ctx workspaceId change wsBlob refOldFrom refNewFrom
  else none

/-- Clear the destination of a plan and install its resolution. -/
def resolveDest (tree : ConflictTree) (res : RenameResolution) : ConflictTree :=
  let cleared := (tree.removeClean res.toPath).removeConflict res.toPath
  match res with
  | .follow toPath epochNewBlob mode => cleared.insertClean toPath ⟨mode, epochNewBlob⟩
  | .conflict _ conflict => cleared.insertConflict conflict

/-- Drop the modification of the destination of a plan. -/
def dropDest (changes : List FileChange) (res : RenameResolution) : List FileChange :=
  changes.filter fun c => !(c.kind = .modified && c.path = res.toPath)

/-- Carry out a plan in the tree and in the patch. The deletion of the source stays. -/
def applyRenameResolution (state : ConflictTree × List FileChange) (res : RenameResolution) :
    ConflictTree × List FileChange :=
  (resolveDest state.1 res, dropDest state.2 res)

/-- Plan all pairs of a patch set, then carry out the plans. -/
def applyRenameResolutions (tree : ConflictTree) (patch : PatchSet) (pairs : RenamePairs) :
    ConflictTree × List FileChange :=
  let resolutions := patch.changes.filterMap (renameResolution ctx patch.workspaceId pairs)
  resolutions.foldl applyRenameResolution (tree, patch.changes)

end Plan

/-! ### The effect at one path -/

section PlanAt

open ConflictTree

/-- What a plan leaves at the destination. -/
def RenameResolution.slot : RenameResolution → Slot
  | follow _ epochNewBlob mode => ⟨some ⟨mode, epochNewBlob⟩, none⟩
  | conflict _ c => ⟨none, some c⟩

variable {ctx : ReplayContext}

/-- When a change is planned: it is the modification of a pair whose source the epoch changed
and kept. -/
theorem renameResolution_eq_some {workspaceId : WorkspaceId} {pairs : RenamePairs}
    {change : FileChange} {res : RenameResolution} :
    renameResolution ctx workspaceId pairs change = some res ↔
      change.kind = .modified ∧ ∃ wsBlob source refOld epochNew, change.blob = some wsBlob ∧
        pairs.sourceOf change.path = some source ∧
        ctx.delta.lookup source = some (refOld, some epochNew) ∧
        res = if refOld = some wsBlob then
            .follow change.path epochNew (change.mode.getD .blob)
          else
            .conflict change.path
              (contentConflict ctx workspaceId change epochNew wsBlob refOld) := by
  unfold renameResolution
  by_cases hkind : change.kind = .modified
  · rw [if_pos hkind]
    simp only [hkind, true_and, bind, Option.bind_eq_some_iff]
    constructor
    · rintro ⟨wsBlob, hblob, source, hsource, ⟨refOld, refNew⟩, hdelta, h⟩
      cases refNew with
      | none => simp [planRenameOverlap] at h
      | some epochNew =>
        refine ⟨wsBlob, source, refOld, epochNew, hblob, hsource, hdelta, ?_⟩
        simp only [planRenameOverlap] at h
        split_ifs at h ⊢ <;> exact (Option.some.inj h).symm
    · rintro ⟨wsBlob, source, refOld, epochNew, hblob, hsource, hdelta, rfl⟩
      refine ⟨wsBlob, hblob, source, hsource, _, hdelta, ?_⟩
      simp only [planRenameOverlap]
      split_ifs <;> rfl
  · simp [hkind]

theorem toPath_of_renameResolution {workspaceId : WorkspaceId} {pairs : RenamePairs}
    {change : FileChange} {res : RenameResolution}
    (h : renameResolution ctx workspaceId pairs change = some res) :
    res.toPath = change.path := by
  obtain ⟨-, wsBlob, source, refOld, epochNew, -, -, -, rfl⟩ := renameResolution_eq_some.mp h
  split_ifs <;> rfl

private theorem slot_resolveDest_of_path {res : RenameResolution}
    (h : ∀ p c, res = .conflict p c → c.path = p) (tree : ConflictTree) (p : Path) :
    (resolveDest tree res).slot p = if res.toPath = p then res.slot else tree.slot p := by
  cases res with
  | follow q blob mode =>
    simp only [resolveDest, RenameResolution.toPath, RenameResolution.slot, slot_insertClean,
      slot_removeConflict, slot_removeClean, eq_comm (a := q)]
    split_ifs <;> rfl
  | conflict q c =>
    simp only [resolveDest, RenameResolution.toPath, RenameResolution.slot, slot_insertConflict,
      slot_removeConflict, slot_removeClean, h q c rfl, eq_comm (a := q)]
    split_ifs <;> rfl

private theorem slot_resolveDest {workspaceId : WorkspaceId} {pairs : RenamePairs}
    {change : FileChange} {res : RenameResolution}
    (h : renameResolution ctx workspaceId pairs change = some res) (tree : ConflictTree)
    (p : Path) :
    (resolveDest tree res).slot p = if res.toPath = p then res.slot else tree.slot p := by
  refine slot_resolveDest_of_path ?_ tree p
  obtain ⟨-, wsBlob, source, refOld, epochNew, -, -, -, rfl⟩ := renameResolution_eq_some.mp h
  intro q c hc
  split_ifs at hc
  cases hc
  rfl

/-- The plan of a patch set for one path. -/
def planAt (ctx : ReplayContext) (patch : PatchSet) (pairs : RenamePairs) (p : Path) :
    Option RenameResolution :=
  (itemAt (·.path) patch.changes p).bind (renameResolution ctx patch.workspaceId pairs)

variable {tree : ConflictTree} {patch : PatchSet} {pairs : RenamePairs}

private theorem itemAt_resolutions (hnodup : (patch.changes.map (·.path)).Nodup) (p : Path) :
    itemAt RenameResolution.toPath
      (patch.changes.filterMap (renameResolution ctx patch.workspaceId pairs)) p =
      planAt ctx patch pairs p :=
  itemAt_filterMap (fun _ _ h => toPath_of_renameResolution h) hnodup

variable (ctx tree pairs) in
theorem applyRenameResolutions_slot (hnodup : (patch.changes.map (·.path)).Nodup) (p : Path) :
    (applyRenameResolutions ctx tree patch pairs).1.slot p =
      (planAt ctx patch pairs p).elim (tree.slot p) RenameResolution.slot := by
  unfold applyRenameResolutions applyRenameResolution
  rw [foldl_prod, ← itemAt_resolutions hnodup p]
  refine foldl_view ConflictTree.slot RenameResolution.toPath (fun res _ => res.slot)
    ?_ ?_ (nodup_map_filterMap (fun _ _ h => toPath_of_renameResolution h) hnodup) tree p
  · intro res hres s
    obtain ⟨change, -, h⟩ := List.mem_filterMap.mp hres
    rw [slot_resolveDest h, if_pos rfl]
  · intro res hres s q hq
    obtain ⟨change, -, h⟩ := List.mem_filterMap.mp hres
    rw [slot_resolveDest h, if_neg hq]

variable (ctx tree pairs) in
/-- The changes left in the patch: those that were not planned. -/
theorem applyRenameResolutions_changes (hnodup : (patch.changes.map (·.path)).Nodup) :
    (applyRenameResolutions ctx tree patch pairs).2 =
      patch.changes.filter fun c => (planAt ctx patch pairs c.path).isNone := by
  unfold applyRenameResolutions applyRenameResolution
  rw [foldl_prod]
  refine (foldl_filter (fun (res : RenameResolution) (c : FileChange) =>
    !(c.kind = .modified && c.path = res.toPath)) _ _).trans ?_
  refine List.filter_congr fun c hc => ?_
  rw [← itemAt_resolutions hnodup, Bool.eq_iff_iff, List.all_eq_true, Option.isNone_iff_eq_none,
    itemAt_eq_none, List.mem_map]
  constructor
  · rintro h ⟨res, hres, hpath⟩
    obtain ⟨c', hc', hplan⟩ := List.mem_filterMap.mp hres
    obtain rfl : c' = c := List.inj_on_of_nodup_map hnodup hc' hc
      ((toPath_of_renameResolution hplan).symm.trans hpath)
    have := h res hres
    simp [(renameResolution_eq_some.mp hplan).1, hpath] at this
  · intro h res hres
    have hne : c.path ≠ res.toPath := fun he => h ⟨res, hres, he.symm⟩
    simp [hne]

end PlanAt

end Maw
