import Maw.Rebase.RenamePairs

/-!
# File and directory clashes

A git tree cannot hold a file and a directory at one path. When the workspace writes a file
where the epoch made a directory, or below a path where the epoch made a file, the workspace's
file becomes a conflict and the epoch's entries that are in its way leave the clean map.

## Main definitions

* `DfClaim`, `dfClaim` — a clash of a path, and its detection in the epoch's changes.
* `promoteDfClashes` — the clashes of all changes of a patch.

## Main results

* `dfClaim_directory_iff`, `dfClaim_eq_file` — what is detected.
* `promoteDfClashes_conflict`, `promoteDfClashes_clean`, `promoteDfClashes_changes` — the effect
  on the tree and on the patch.
-/

open PointwiseFold

namespace Maw

/-- A clash of a workspace file: the epoch has a directory at its path, or a file at one of its
parents. -/
inductive DfClaim
  | directory (childBlob : Option GitOid)
  | file (ancestor : Path) (fileBlob : GitOid)
  deriving DecidableEq

/-- The first path below `p` that the epoch gained or changed. -/
def epochDirChild (delta : EpochDelta) (p : Path) : Option (Sigma fun _ : Path => DeltaSides) :=
  delta.entries.find? fun e => e.2.2.isSome && p.isDirPrefixOf e.1

/-- The clash of `p` with a changed file of the epoch at one of its parents. -/
def dfClaimAbove (delta : EpochDelta) (p ancestor : Path) : Option DfClaim :=
  match delta.liveAt ancestor with
  | some fileBlob => if (delta.lookup p).isNone then some (.file ancestor fileBlob) else none
  | none => none

/-- The clash of a workspace file at `p`, if there is one. A file of the epoch at `p` itself is
an overlap, not a clash. -/
def dfClaim (delta : EpochDelta) (p : Path) : Option DfClaim :=
  if (epochDirChild delta p).isSome && (delta.liveAt p).isNone then
    some (.directory ((epochDirChild delta p).bind fun e => e.2.2))
  else
    p.ancestors.findSome? (dfClaimAbove delta p)

section Promote

variable (ctx : ReplayContext) (workspaceId : WorkspaceId) (pairs : RenamePairs)

/-- The clash of a change: additions and modifications that are not rename destinations. -/
def dfClaimOf (change : FileChange) : Option (GitOid × DfClaim) :=
  if change.isUpsert && (pairs.sourceOf change.path).isNone then do
    let wsBlob ← change.blob
    let claim ← dfClaim ctx.delta change.path
    pure (wsBlob, claim)
  else none

/-- The conflict of a clash, filed under the workspace's path. The epoch is the deleting side;
the root of the clash is remembered. -/
def dfConflict (change : FileChange) (wsBlob : GitOid) (claim : DfClaim) : Conflict :=
  let side blob := ConflictSide.new "epoch" blob (ctx.ordering workspaceId)
  let conflict deleter root :=
    Conflict.modifyDelete change.path (ctx.repo.mergeFileIdSeed deletedSeed change.path)
      (.new ctx.wsName wsBlob (ctx.ordering workspaceId)) deleter wsBlob none (some root)
  match claim with
  | .directory childBlob => conflict (side (childBlob.getD wsBlob)) change.path
  | .file ancestor fileBlob => conflict (side fileBlob) ancestor

/-- Remove the epoch's entries that are in the way and file the conflict. -/
def claimDfClash (tree : ConflictTree) (change : FileChange) : ConflictTree :=
  match dfClaimOf ctx pairs change with
  | none => tree
  | some (wsBlob, claim) =>
    let tree :=
      match claim with
      | .directory _ => (tree.removeCleanBelow change.path).removeClean change.path
      | .file ancestor _ => tree.removeClean ancestor
    tree.insertConflict (dfConflict ctx workspaceId change wsBlob claim)

def dfStep (state : ConflictTree × List Path) (change : FileChange) : ConflictTree × List Path :=
  (claimDfClash ctx workspaceId pairs state.1 change,
    if (dfClaimOf ctx pairs change).isSome then state.2 ++ [change.path] else state.2)

/-- Turn the clashes of a patch into conflicts and take the claimed changes out of the patch. -/
def promoteDfClashes (tree : ConflictTree) (changes : List FileChange) :
    ConflictTree × List FileChange :=
  let result := changes.foldl (dfStep ctx workspaceId pairs) (tree, [])
  (result.1, changes.filter fun c => !(result.2.contains c.path))

end Promote

/-! ### Detection -/

section Detection

variable {delta : EpochDelta} {p : Path}

theorem epochDirChild_isSome :
    (epochDirChild delta p).isSome = true ↔ ∃ q, p.Above q ∧ delta.liveAt q ≠ none := by
  simp only [epochDirChild, List.find?_isSome, Bool.and_eq_true, Path.isDirPrefixOf_iff]
  constructor
  · rintro ⟨⟨q, sides⟩, hmem, hsome, habove⟩
    have hlookup : delta.lookup q = some sides := AList.mem_lookup_iff.mpr hmem
    refine ⟨q, habove, ?_⟩
    simpa [EpochDelta.liveAt, hlookup, Option.isSome_iff_ne_none] using hsome
  · rintro ⟨q, habove, hlive⟩
    cases hlookup : delta.lookup q with
    | none => simp [EpochDelta.liveAt, hlookup] at hlive
    | some sides =>
      refine ⟨⟨q, sides⟩, AList.mem_lookup_iff.mp hlookup, ?_, habove⟩
      simpa [EpochDelta.liveAt, hlookup, Option.isSome_iff_ne_none] using hlive

theorem dfClaimAbove_eq_some {a : Path} {claim : DfClaim} :
    dfClaimAbove delta p a = some claim ↔
      ∃ blob, delta.liveAt a = some blob ∧ delta.lookup p = none ∧ claim = .file a blob := by
  unfold dfClaimAbove
  cases delta.liveAt a with
  | none => simp
  | some blob =>
    simp only [Option.isNone_iff_eq_none, Option.some.injEq]
    split_ifs with h
    · simp [h, eq_comm]
    · simp [h]

/-- A directory clash: the epoch changed a live path below and has no changed file here. -/
theorem dfClaim_directory_iff :
    (∃ childBlob, dfClaim delta p = some (.directory childBlob)) ↔
      (∃ q, p.Above q ∧ delta.liveAt q ≠ none) ∧ delta.liveAt p = none := by
  rw [← epochDirChild_isSome, ← Option.isNone_iff_eq_none, ← Bool.and_eq_true]
  unfold dfClaim
  split_ifs with h
  · exact iff_of_true ⟨_, rfl⟩ h
  · refine iff_of_false ?_ h
    rintro ⟨childBlob, hfind⟩
    obtain ⟨a, -, ha⟩ := List.exists_of_findSome?_eq_some hfind
    obtain ⟨blob, -, -, he⟩ := dfClaimAbove_eq_some.mp ha
    cases he

/-- A file clash: a path that the epoch did not change, below a changed file of the epoch, and
no directory clash. -/
theorem dfClaim_eq_file {a : Path} {blob : GitOid} (h : dfClaim delta p = some (.file a blob)) :
    a.Above p ∧ delta.liveAt a = some blob ∧ delta.lookup p = none ∧
      ∀ q, p.Above q → delta.liveAt q = none := by
  unfold dfClaim at h
  split_ifs at h with hdir
  · cases h
  obtain ⟨b, hb, hb'⟩ := List.exists_of_findSome?_eq_some h
  obtain ⟨blob', hlive, hlookup, he⟩ := dfClaimAbove_eq_some.mp hb'
  cases he
  refine ⟨Path.mem_ancestors.mp hb, hlive, hlookup, fun q hq => ?_⟩
  by_contra hne
  refine hdir (Bool.and_eq_true_iff.mpr ⟨epochDirChild_isSome.mpr ⟨q, hq, hne⟩, ?_⟩)
  simp [EpochDelta.liveAt, hlookup]

end Detection

/-! ### The effect -/

section Effect

open ConflictTree

variable {ctx : ReplayContext} {workspaceId : WorkspaceId} {pairs : RenamePairs}

/-- Which changes can clash, and when they do. -/
theorem dfClaimOf_eq_some {change : FileChange} {wsBlob : GitOid} {claim : DfClaim} :
    dfClaimOf ctx pairs change = some (wsBlob, claim) ↔
      change.kind ≠ .deleted ∧ pairs.sourceOf change.path = none ∧ change.blob = some wsBlob ∧
        dfClaim ctx.delta change.path = some claim := by
  unfold dfClaimOf
  split_ifs with h
  · rw [Bool.and_eq_true, FileChange.isUpsert_iff, Option.isNone_iff_eq_none] at h
    simp [h, Option.bind_eq_some_iff]
  · rw [Bool.and_eq_true, FileChange.isUpsert_iff, Option.isNone_iff_eq_none] at h
    simp only [false_iff]
    rintro ⟨hkind, hsource, -⟩
    exact h ⟨hkind, hsource⟩

/-- The conflict that a change is turned into, if it clashes. -/
def dfConflictOf (ctx : ReplayContext) (workspaceId : WorkspaceId) (pairs : RenamePairs)
    (change : FileChange) : Option Conflict :=
  (dfClaimOf ctx pairs change).map fun claim => dfConflict ctx workspaceId change claim.1 claim.2

/-- The clean entries that a clash removes. -/
def DfClaim.removes (p : Path) : DfClaim → Path → Bool
  | directory _, q => q = p || p.Above q
  | file ancestor _, q => q = ancestor

/-- The clean entries that a change removes, if it clashes. -/
def dfRemoves (ctx : ReplayContext) (pairs : RenamePairs) (q : Path) (change : FileChange) :
    Bool :=
  (dfClaimOf ctx pairs change).any fun claim => claim.2.removes change.path q

theorem dfRemoves_eq_true {q : Path} {change : FileChange} :
    dfRemoves ctx pairs q change = true ↔
      ∃ wsBlob claim, dfClaimOf ctx pairs change = some (wsBlob, claim) ∧
        claim.removes change.path q = true := by
  unfold dfRemoves
  cases dfClaimOf ctx pairs change with
  | none => simp
  | some found => simp [Prod.ext_iff]

theorem path_dfConflict (change : FileChange) (wsBlob : GitOid) (claim : DfClaim) :
    (dfConflict ctx workspaceId change wsBlob claim).path = change.path := by
  cases claim <;> rfl

private theorem conflict_claimDfClash (tree : ConflictTree) (change : FileChange) (q : Path) :
    (claimDfClash ctx workspaceId pairs tree change).conflicts.lookup q =
      if change.path = q then
        (dfConflictOf ctx workspaceId pairs change).or (tree.conflicts.lookup q)
      else tree.conflicts.lookup q := by
  unfold claimDfClash dfConflictOf
  cases dfClaimOf ctx pairs change with
  | none => simp
  | some found =>
    obtain ⟨wsBlob, claim⟩ := found
    rw [← slot_conflict, slot_insertConflict, path_dfConflict, Option.map_some, Option.some_or]
    by_cases hq : q = change.path
    · rw [if_pos hq, if_pos hq.symm]
    · rw [if_neg hq, if_neg (Ne.symm hq)]
      cases claim with
      | directory childBlob =>
        rw [slot_removeClean, if_neg hq, slot_removeCleanBelow]
        split_ifs <;> rfl
      | file a blob =>
        rw [slot_removeClean]
        split_ifs <;> rfl

private theorem clean_claimDfClash (tree : ConflictTree) (change : FileChange) (q : Path) :
    (claimDfClash ctx workspaceId pairs tree change).clean.lookup q =
      if dfRemoves ctx pairs q change then none else tree.clean.lookup q := by
  unfold claimDfClash dfRemoves
  cases dfClaimOf ctx pairs change with
  | none => simp
  | some found =>
    obtain ⟨wsBlob, claim⟩ := found
    have hinsert (t : ConflictTree) (c : Conflict) :
        ((t.insertConflict c).slot q).clean = (t.slot q).clean := by
      rw [slot_insertConflict]
      split_ifs <;> rfl
    rw [← slot_clean, hinsert, Option.any_some]
    cases claim with
    | directory childBlob =>
      rw [slot_removeClean, slot_removeCleanBelow]
      by_cases hq : q = change.path
      · simp [hq, DfClaim.removes]
      · by_cases ha : change.path.Above q <;> simp [hq, ha, DfClaim.removes, slot_clean]
    | file a blob =>
      rw [slot_removeClean]
      by_cases hq : q = a <;> simp [hq, DfClaim.removes, slot_clean]

variable {tree : ConflictTree} {changes : List FileChange}

private theorem foldl_dfStep :
    changes.foldl (dfStep ctx workspaceId pairs) (tree, []) =
      (changes.foldl (claimDfClash ctx workspaceId pairs) tree,
        (changes.filter fun c => (dfClaimOf ctx pairs c).isSome).map (·.path)) := by
  have hsnoc := foldl_snoc_filter (fun c : FileChange => c.path)
    (fun c => (dfClaimOf ctx pairs c).isSome) changes []
  rw [List.nil_append] at hsnoc
  rw [← hsnoc]
  exact foldl_prod (claimDfClash ctx workspaceId pairs)
    (fun claimed c => if (dfClaimOf ctx pairs c).isSome then claimed ++ [c.path] else claimed)
    changes tree []

private theorem promoteDfClashes_eq (hnodup : (changes.map (·.path)).Nodup) :
    promoteDfClashes ctx workspaceId pairs tree changes =
      (changes.foldl (claimDfClash ctx workspaceId pairs) tree,
        changes.filter fun c => (dfClaimOf ctx pairs c).isNone) := by
  unfold promoteDfClashes
  rw [foldl_dfStep]
  refine Prod.ext rfl (List.filter_congr fun c hc => ?_)
  rw [Bool.eq_iff_iff, Bool.not_eq_true', ← Bool.not_eq_true, List.contains_iff_mem,
    List.mem_map, Option.isNone_iff_eq_none]
  constructor
  · intro h
    by_contra hne
    exact h ⟨c, List.mem_filter.mpr ⟨hc, Option.isSome_iff_ne_none.mpr hne⟩, rfl⟩
  · rintro h ⟨c', hc', hpath⟩
    obtain ⟨hc', hsome⟩ := List.mem_filter.mp hc'
    obtain rfl := List.inj_on_of_nodup_map hnodup hc' hc hpath
    simp [h] at hsome

/-- The conflict of a path after detection: that of its own clash, or the one before. -/
theorem promoteDfClashes_conflict (hnodup : (changes.map (·.path)).Nodup) (q : Path) :
    (promoteDfClashes ctx workspaceId pairs tree changes).1.conflicts.lookup q =
      ((itemAt (·.path) changes q).bind (dfConflictOf ctx workspaceId pairs)).or
        (tree.conflicts.lookup q) := by
  rw [promoteDfClashes_eq hnodup]
  refine (foldl_view (fun t q => t.conflicts.lookup q) (fun c : FileChange => c.path)
    (fun c v => (dfConflictOf ctx workspaceId pairs c).or v) ?_ ?_ hnodup tree q).trans ?_
  · intro c _ t
    rw [conflict_claimDfClash, if_pos rfl]
  · intro c _ t k hk
    rw [conflict_claimDfClash, if_neg hk]
  · cases itemAt (·.path) changes q <;> rfl

/-- The clean entry of a path after detection: gone if a clash removes it. -/
theorem promoteDfClashes_clean (hnodup : (changes.map (·.path)).Nodup) (q : Path) :
    (promoteDfClashes ctx workspaceId pairs tree changes).1.clean.lookup q =
      if changes.any (dfRemoves ctx pairs q) then none else tree.clean.lookup q := by
  rw [promoteDfClashes_eq hnodup, ← foldl_clear]
  exact foldl_cells (fun t q => t.clean.lookup q)
    (fun c q v => if dfRemoves ctx pairs q c then none else v)
    (fun t c q => clean_claimDfClash t c q) changes tree q

/-- The changes left in the patch: those that do not clash. -/
theorem promoteDfClashes_changes (hnodup : (changes.map (·.path)).Nodup) :
    (promoteDfClashes ctx workspaceId pairs tree changes).2 =
      changes.filter fun c => (dfClaimOf ctx pairs c).isNone := by
  rw [promoteDfClashes_eq hnodup]

end Effect

end Maw
