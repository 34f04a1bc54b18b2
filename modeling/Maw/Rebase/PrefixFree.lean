import Maw.Rebase.BuildTree
import Maw.Rebase.Replay

/-!
# Files and directories after a step

The paths of a conflict tree, settled and contested, have to be prefix-free, or the tree of the
step cannot be written. A step keeps them so exactly when everything in the way of a path that the
commit leaves behind makes room: it is deleted by the commit without a conflict, or removed by a
file and directory clash.

## Main definitions

* `Occupies`, `Vacates` — the changes that leave something at their path, and the paths that a
  step empties.
* `Fits` — everything in the way makes room.

## Main results

* `mem_paths_step` — the paths after a step.
* `prefixFree_step_iff` — a step keeps the paths prefix-free exactly when its commit fits.
* `replay_never_wedges` — a replay whose commits fit is never refused by the writer of its trees.
-/

open PointwiseFold

namespace Maw

open ConflictTree

/-- The change leaves a file or a conflict at its path: it is no deletion, or the deletion of a
file that the epoch changed and the workspace did not rename. -/
def Occupies (ctx : ReplayContext) (patch : PatchSet) (change : FileChange) : Prop :=
  change.kind ≠ .deleted ∨
    (collectRenamePairs patch).isSource change.path = false ∧ ctx.delta.liveAt change.path ≠ none

/-- The step empties the path: no conflict is there, and the commit deletes it for good, or leaves
it alone while a clash removes its entry. -/
def Vacates (ctx : ReplayContext) (patch : PatchSet) (state : ConflictTree) (p : Path) : Prop :=
  (state.slot p).conflict = none ∧
    (itemAt (·.path) patch.changes p).elim (clearedAt ctx patch p = true) fun change =>
      ¬ Occupies ctx patch change

/-- Everything in the way of a path that the commit leaves behind makes room for it. -/
structure Fits (ctx : ReplayContext) (patch : PatchSet) (state : ConflictTree) : Prop where
  /-- A deletion that the epoch contests is not in the way of an addition or modification. -/
  deletions : ∀ change ∈ patch.changes, change.kind ≠ .deleted → ∀ deletion ∈ patch.changes,
    deletion.kind = .deleted → Occupies ctx patch deletion →
      ¬ change.path.Comparable deletion.path
  /-- A path of the tree that is in the way is emptied. -/
  vacated : ∀ change ∈ patch.changes, Occupies ctx patch change → ∀ q,
    change.path.Comparable q → q ∈ state.paths → Vacates ctx patch state q

section Step

variable {ctx : ReplayContext} {parent tree : GitTree} {patch : PatchSet}
  {state state' : ConflictTree} {p : Path}

/-- Of the paths that a commit adds or modifies, none lies above another. -/
private theorem not_comparable_of_upsert (hpatch : IsPatch ctx parent tree patch)
    (htree : TreePrefixFree tree) {c d : FileChange} (hc : c ∈ patch.changes)
    (hd : d ∈ patch.changes) (hck : c.kind ≠ .deleted) (hdk : d.kind ≠ .deleted) :
    ¬ c.path.Comparable d.path := by
  have hmem {e : FileChange} (he : e ∈ patch.changes) (hk : e.kind ≠ .deleted) :
      tree.lookup e.path ≠ none := by
    obtain ⟨mode, blob, -, -, hlookup⟩ := hpatch.lookup_of_upsert he hk
    rw [hlookup]
    exact Option.some_ne_none _
  exact PrefixFree.not_comparable htree (hmem hc hck) (hmem hd hdk)

/-- Nor of those that it deletes. -/
private theorem not_comparable_of_deleted (hpatch : IsPatch ctx parent tree patch)
    (hparent : TreePrefixFree parent) {c d : FileChange} (hc : c ∈ patch.changes)
    (hd : d ∈ patch.changes) (hck : c.kind = .deleted) (hdk : d.kind = .deleted) :
    ¬ c.path.Comparable d.path := by
  have hmem {e : FileChange} (he : e ∈ patch.changes) (hk : e.kind = .deleted) :
      parent.lookup e.path ≠ none := by
    rw [← hpatch.lookup_of_deleted he hk]
    exact hpatch.lookup_ne he
  exact PrefixFree.not_comparable hparent (hmem hc hck) (hmem hd hdk)

/-- A clash does not remove the entry of a planned rename. -/
private theorem clearedAt_of_plan (hpatch : IsPatch ctx parent tree patch)
    (htree : TreePrefixFree tree) {change : FileChange} (hmem : change ∈ patch.changes)
    {res : RenameResolution}
    (hplan : renameResolution ctx patch.workspaceId (collectRenamePairs patch) change = some res) :
    clearedAt ctx patch change.path = false := by
  rw [Bool.eq_false_iff]
  intro hclear
  simp only [clearedAt, List.any_eq_true, dfRemoves_eq_true] at hclear
  obtain ⟨c, hc, ws, claim, hclaim, hremoves⟩ := hclear
  have hkind : change.kind ≠ .deleted := by simp [(renameResolution_eq_some.mp hplan).1]
  obtain ⟨hupsert, -, -, hfound⟩ := dfClaimOf_eq_some.mp hclaim
  have hcomparable := not_comparable_of_upsert hpatch htree hc hmem
    hupsert hkind
  cases claim with
  | directory childBlob =>
    simp only [DfClaim.removes, Bool.or_eq_true, decide_eq_true_eq] at hremoves
    rcases hremoves with heq | habove
    · obtain rfl := List.inj_on_of_nodup_map hpatch.nodup hmem hc heq
      rw [renameResolution_of_dfClaimOf hclaim] at hplan
      cases hplan
    · exact hcomparable (.inl habove)
  | file a blob =>
    simp only [DfClaim.removes, decide_eq_true_eq] at hremoves
    exact hcomparable (.inr (hremoves ▸ (dfClaim_eq_file hfound).1))

/-- A change that leaves something at its path puts the path into the tree. -/
private theorem mem_paths_of_occupies (hpatch : IsPatch ctx parent tree patch)
    (htree : TreePrefixFree tree) (hat : StepAt ctx patch p (state.slot p) (state'.slot p))
    {change : FileChange} (hitem : itemAt (·.path) patch.changes p = some change)
    (hoccupies : Occupies ctx patch change) : p ∈ state'.paths := by
  have hmem := mem_of_itemAt hitem
  obtain rfl : change.path = p := key_of_itemAt hitem
  rw [mem_paths]
  generalize state'.slot change.path = s' at hat ⊢
  cases hat with
  | untouched item => exact absurd item (itemAt_ne_none hmem)
  | renamed item plan =>
    obtain rfl := eq_of_itemAt hpatch.nodup hmem item
    have hclear := clearedAt_of_plan hpatch htree hmem plan
    obtain ⟨-, ws, f, refOld, new, -, -, -, rfl⟩ := renameResolution_eq_some.mp plan
    rw [cleared, hclear, if_neg Bool.false_ne_true]
    split_ifs
    · exact .inl (Option.some_ne_none _)
    · exact .inr (Option.some_ne_none _)
  | clash | contested | kept => exact .inr (Option.some_ne_none _)
  | resolved => exact .inl (Option.some_ne_none _)
  | applied item plan found reason settled hslot =>
    obtain rfl := (eq_of_itemAt hpatch.nodup hmem item).symm
    have hkind : change.kind ≠ .deleted := by
      rintro hkind
      obtain ⟨hsource, hlive⟩ := hoccupies.resolve_left (not_not_intro hkind)
      cases reason with
      | blobless kind | dest kind | same kind | reverted kind => exact kind hkind
      | source _ pair => simp [hsource] at pair
      | unchanged _ _ delta | bothDeleted _ _ delta => simp [EpochDelta.liveAt, delta] at hlive
    obtain ⟨mode, blob, -, -, hlookup⟩ := hpatch.lookup_of_upsert hmem hkind
    rw [hpatch.settledSlot_eq hmem hslot, hlookup]
    exact .inl (Option.some_ne_none _)

/-- Any other change leaves its path to the conflict that is there, if there is one. -/
private theorem mem_paths_of_not_occupies (hat : StepAt ctx patch p (state.slot p) (state'.slot p))
    {change : FileChange} (hitem : itemAt (·.path) patch.changes p = some change)
    (hfree : ¬ Occupies ctx patch change) :
    p ∈ state'.paths ↔ (state.slot p).conflict ≠ none := by
  rw [Occupies, not_or, not_not, not_and, not_not] at hfree
  obtain ⟨hkind, hlive⟩ := hfree
  rw [mem_paths]
  generalize state'.slot p = s' at hat ⊢
  cases hat with
  | untouched item =>
    rw [hitem] at item
    cases item
  | renamed item plan =>
    obtain rfl := Option.some.inj (hitem.symm.trans item)
    have hmodified := (renameResolution_eq_some.mp plan).1
    simp [hkind] at hmodified
  | clash item found =>
    obtain rfl := Option.some.inj (hitem.symm.trans item)
    exact absurd hkind (dfClaimOf_eq_some.mp found).1
  | contested item found action =>
    obtain rfl := Option.some.inj (hitem.symm.trans item)
    cases action with
    | epochDeleted kind | content kind => exact absurd hkind kind
    | workspaceDeleted _ pair delta =>
      have hnone := hlive pair
      simp [EpochDelta.liveAt, delta] at hnone
  | resolved item found action =>
    obtain rfl := Option.some.inj (hitem.symm.trans item)
    cases action with
    | merged kind => exact absurd hkind kind
  | applied item plan found reason settled hslot =>
    obtain rfl := Option.some.inj (hitem.symm.trans item)
    rw [settledSlot_of_deleted hkind hslot, settled]
    simp
  | kept item plan found reason contested =>
    rw [contested]
    exact iff_of_true (.inr (Option.some_ne_none _)) (Option.some_ne_none _)

/-- The paths after a step: those where the commit leaves something, and of those before it the
ones that are not emptied. -/
theorem mem_paths_step (hpatch : IsPatch ctx parent tree patch) (htree : TreePrefixFree tree)
    (hat : StepAt ctx patch p (state.slot p) (state'.slot p)) :
    p ∈ state'.paths ↔ (∃ change ∈ patch.changes, change.path = p ∧ Occupies ctx patch change) ∨
      p ∈ state.paths ∧ ¬ Vacates ctx patch state p := by
  cases hitem : itemAt (·.path) patch.changes p with
  | none =>
    have hno : ¬ ∃ change ∈ patch.changes, change.path = p ∧ Occupies ctx patch change := by
      rintro ⟨change, hmem, rfl, -⟩
      exact itemAt_ne_none hmem hitem
    rw [or_iff_right hno, mem_paths, mem_paths, hat.of_untouched hitem, Vacates, hitem,
      Option.elim_none, cleared]
    by_cases hclear : clearedAt ctx patch p = true
    · simp only [hclear, if_true]
      tauto
    · simp [hclear]
  | some change =>
    have hmem := mem_of_itemAt hitem
    have hpath : change.path = p := key_of_itemAt hitem
    by_cases hoccupies : Occupies ctx patch change
    · exact iff_of_true (mem_paths_of_occupies hpatch htree hat hitem hoccupies)
        (.inl ⟨change, hmem, hpath, hoccupies⟩)
    · have hno : ¬ ∃ c ∈ patch.changes, c.path = p ∧ Occupies ctx patch c := by
        rintro ⟨c, hc, hcp, hco⟩
        obtain rfl := List.inj_on_of_nodup_map hpatch.nodup hc hmem (hcp.trans hpath.symm)
        exact hoccupies hco
      rw [or_iff_right hno, mem_paths_of_not_occupies hat hitem hoccupies, mem_paths, Vacates,
        hitem, Option.elim_some]
      tauto

/-- A step keeps the paths of the tree prefix-free exactly when its commit fits. -/
theorem prefixFree_step_iff (hpatch : IsPatch ctx parent tree patch)
    (hparent : TreePrefixFree parent) (htree : TreePrefixFree tree)
    (hat : ∀ p, StepAt ctx patch p (state.slot p) (state'.slot p))
    (hfree : PrefixFree state.paths) : PrefixFree state'.paths ↔ Fits ctx patch state := by
  have hpaths (q : Path) := mem_paths_step hpatch htree (hat q)
  have hleft {c : FileChange} (hc : c ∈ patch.changes) (ho : Occupies ctx patch c) :
      c.path ∈ state'.paths := (hpaths _).mpr (.inl ⟨c, hc, rfl, ho⟩)
  constructor
  · intro h
    exact {
      deletions := fun c hc hck d hd _ ho =>
        h.not_comparable (hleft hc (.inl hck)) (hleft hd ho)
      vacated := fun c hc ho q hcomparable hq => by
        by_contra hstays
        exact h.not_comparable (hleft hc ho) ((hpaths q).mpr (.inr ⟨hq, hstays⟩)) hcomparable }
  · intro h p hp q hq habove
    rcases (hpaths p).mp hp with ⟨c, hc, rfl, hco⟩ | ⟨hp, hpstays⟩
    · rcases (hpaths q).mp hq with ⟨d, hd, rfl, hdo⟩ | ⟨hq, hqstays⟩
      · by_cases hck : c.kind = .deleted <;> by_cases hdk : d.kind = .deleted
        · exact not_comparable_of_deleted hpatch hparent hc hd hck hdk (.inl habove)
        · exact h.deletions d hd hdk c hc hck hco (.inr habove)
        · exact h.deletions c hc hck d hd hdk hdo (.inl habove)
        · exact not_comparable_of_upsert hpatch htree hc hd hck hdk (.inl habove)
      · exact hqstays (h.vacated c hc hco q (.inl habove) hq)
    · rcases (hpaths q).mp hq with ⟨d, hd, rfl, hdo⟩ | ⟨hq, hqstays⟩
      · exact hpstays (h.vacated d hd hdo p (.inr habove) hp)
      · exact hfree p hp q hq habove

end Step

section Runs

variable {ctx : ReplayContext} {oldEpoch newEpoch : GitTree} {before after : List ReplayCommit}
  {state : ConflictTree}

/-- The commit fits the state before it, and its paths have no backslashes. -/
def FitsStep (ctx : ReplayContext) (_parent : GitTree) (state : ConflictTree)
    (commit : ReplayCommit) : Prop :=
  ∀ patch, workspacePatch ctx commit.diff = .ok patch →
    Fits ctx patch state ∧ ∀ change ∈ patch.changes, change.path.IsPlain

/-- What a run keeps: the workspace's tree and the paths of the state are prefix-free, and the
paths have no backslashes. -/
private structure NeverWedged (wsTree : GitTree) (state : ConflictTree) : Prop where
  wsTree : TreePrefixFree wsTree
  paths : PrefixFree state.paths
  plain : ∀ p ∈ state.paths, p.IsPlain

/-- After every step of a replay whose commits fit, the paths of the conflict tree are
prefix-free, and the writer of the step's tree does not refuse them. -/
theorem replay_never_wedges (hold : TreePrefixFree oldEpoch) (hnew : TreePrefixFree newEpoch)
    (hplain : ∀ p, newEpoch.lookup p ≠ none → p.IsPlain)
    (hchain : IsChain oldEpoch (before ++ after))
    (htrees : ∀ c ∈ before ++ after, TreePrefixFree c.tree)
    (hfits : StepsMeet ctx (FitsStep ctx) oldEpoch
      (seedConflictTreeFromEpoch newEpoch ctx.baseEpochId) (before ++ after))
    (hrun : replay ctx newEpoch before = .ok state) :
    PrefixFree state.paths ∧
      ∀ render output, materialize render state = .ok output → ∀ baseTree path child,
        writeBlobsAndBuildTree ctx.repo baseTree output ≠ .error (.dfClash path child) := by
  have hseed : NeverWedged oldEpoch (seedConflictTreeFromEpoch newEpoch ctx.baseEpochId) := by
    have hpaths (p : Path) :
        p ∈ (seedConflictTreeFromEpoch newEpoch ctx.baseEpochId).paths → newEpoch.lookup p ≠ none := by
      simp [mem_paths, slot_seed]
    exact ⟨hold, PrefixFree.mono hnew hpaths, fun p hp => hplain p (hpaths p hp)⟩
  have hinv := replay_induction (fun _ => NeverWedged)
    (fun {_ parent state commit state' patch} hinv hcond hpatch hisPatch _ hat => by
      obtain ⟨hfits, htree⟩ := hcond
      obtain ⟨hfits, hplain⟩ := hfits patch hpatch
      refine ⟨htree, (prefixFree_step_iff hisPatch hinv.wsTree htree hat hinv.paths).mpr hfits,
        fun p hp => ?_⟩
      rcases (mem_paths_step hisPatch htree (hat p)).mp hp with ⟨c, hc, rfl, -⟩ | ⟨hp, -⟩
      · exact hplain c hc
      · exact hinv.plain p hp)
    [] hchain.left (hfits.left.and_forall fun c hc => htrees c (List.mem_append_left after hc))
    hseed hrun
  refine ⟨hinv.paths, fun render output houtput baseTree path child => ?_⟩
  have hmem := mem_materialize houtput
  exact writeBlobsAndBuildTree_ne_dfClash (fun p hp => hinv.plain p ((hmem p).mp hp))
    (PrefixFree.mono hinv.paths fun p hp => (hmem p).mp hp) path child

end Runs

section Samples

private def dir : Path := ⟨[.lit "lib"], by decide⟩

private def child : Path := ⟨[.lit "lib", .lit "mod.rs"], by decide⟩

private def other : Path := ⟨[.lit "etc"], by decide⟩

private def dirTree (n : Nat) : GitTree := sampleTree [(dir, ⟨.blob, sampleBlob n⟩)]

private def dirEntries : List DiffEntry :=
  [.modified dir ⟨.blob, sampleBlob 1⟩ ⟨.blob, sampleBlob 2⟩]

/-- The workspace makes the file that the epoch edits a directory. -/
private def makeDir : ReplayCommit :=
  ⟨sampleBlob 8, sampleTree [(child, ⟨.blob, sampleBlob 3⟩)],
    [.deleted dir ⟨.blob, sampleBlob 1⟩, .added child ⟨.blob, sampleBlob 3⟩], []⟩

/-- Both the file and the one below it end in conflict, and no tree can be written. -/
theorem replay_makeDir_wedges :
    IsEpochDelta (dirTree 1) (dirTree 2) (sampleContext dirEntries).delta ∧
      IsChain (dirTree 1) [makeDir] ∧ TreePrefixFree (dirTree 1) ∧ TreePrefixFree (dirTree 2) ∧
      TreePrefixFree makeDir.tree ∧
      ∃ state, replay (sampleContext dirEntries) (dirTree 2) [makeDir] = .ok state ∧
        ¬ PrefixFree state.paths ∧
        ∀ render output, materialize render state = .ok output → ∀ tree,
          writeBlobsAndBuildTree sampleRepo (dirTree 2) output ≠ .ok tree := by
  obtain ⟨state, hrun⟩ := ExceptRun.exists_ok
    (x := replay (sampleContext dirEntries) (dirTree 2) [makeDir]) (by decide)
  have hslots : (replay (sampleContext dirEntries) (dirTree 2) [makeDir]).toOption.map
      (fun s => (s.clean.keys ∪ s.conflicts.keys)) = some {dir, child} := by decide
  rw [hrun] at hslots
  have hkeys : state.clean.keys ∪ state.conflicts.keys = {dir, child} := Option.some.inj hslots
  have hpaths (p : Path) : p ∈ state.paths ↔ p ∈ ({dir, child} : Finset Path) := by
    rw [← hkeys, Finset.mem_union, Finmap.mem_keys, Finmap.mem_keys]
    rfl
  have hwedged : ¬ PrefixFree state.paths := fun h =>
    h dir ((hpaths dir).mpr (by decide)) child ((hpaths child).mpr (by decide)) (by decide)
  refine ⟨isEpochDelta_sampleContext (by decide), ⟨by decide, rfl, trivial⟩, by decide, by decide,
    by decide, state, hrun, hwedged, fun render output houtput tree htree => hwedged ?_⟩
  have hmem := mem_materialize houtput
  have hplain : ∀ p ∈ ({dir, child} : Finset Path), p.IsPlain := by decide
  exact PrefixFree.mono (prefixFree_of_writeBlobsAndBuildTree
    (fun p hp => hplain p ((hpaths p).mp ((hmem p).mp hp))) htree) fun p hp => (hmem p).mpr hp

/-- The workspace adds another file. -/
private def addFile : ReplayCommit :=
  ⟨sampleBlob 8, sampleTree [(dir, ⟨.blob, sampleBlob 1⟩), (other, ⟨.blob, sampleBlob 3⟩)],
    [.added other ⟨.blob, sampleBlob 3⟩], []⟩

private def addPatch : PatchSet :=
  ⟨⟨"w"⟩, ⟨sampleBlob 7⟩,
    [⟨other, .added, some [0], some (fileIdFromBlob (sampleBlob 3)), some (sampleBlob 3),
      some .blob⟩]⟩

theorem replay_never_wedges_addFile :
    ∃ state, replay (sampleContext dirEntries) (dirTree 2) [addFile] = .ok state ∧
      PrefixFree state.paths := by
  obtain ⟨state, hrun⟩ := ExceptRun.exists_ok
    (x := replay (sampleContext dirEntries) (dirTree 2) [addFile]) (by decide)
  have hkeys {p : Path} (hp : (dirTree 2).lookup p ≠ none) : p ∈ (dirTree 2).keys :=
    Finmap.mem_keys.mpr (by simpa [Finmap.lookup_eq_none] using hp)
  have hplain : ∀ p ∈ (dirTree 2).keys, p.IsPlain := by decide
  have hapart : ∀ p ∈ (dirTree 2).keys, ¬ other.Comparable p := by decide
  have hpatch : workspacePatch (sampleContext dirEntries) addFile.diff = .ok addPatch := by rfl
  have hfits : FitsStep (sampleContext dirEntries) (dirTree 1)
      (seedConflictTreeFromEpoch (dirTree 2) ⟨sampleBlob 7⟩) addFile := by
    intro patch h
    obtain rfl := Except.ok.inj (hpatch.symm.trans h)
    have hmem {change : FileChange} (hc : change ∈ addPatch.changes) := List.mem_singleton.mp hc
    refine ⟨⟨fun _ _ _ d hd hdk => ?_, fun c hc _ q hcomparable hq => ?_⟩, fun c hc => ?_⟩
    · rw [hmem hd] at hdk
      cases hdk
    · rw [hmem hc] at hcomparable
      rw [mem_paths, slot_seed] at hq
      exact absurd hcomparable (hapart q (hkeys (hq.resolve_right fun hne => hne rfl)))
    · rw [hmem hc]
      decide
  have hchain : IsChain (dirTree 1) ([addFile] ++ []) := ⟨by decide, rfl, trivial⟩
  have hmeet : StepsMeet (sampleContext dirEntries) (FitsStep (sampleContext dirEntries)) (dirTree 1)
      (seedConflictTreeFromEpoch (dirTree 2) ⟨sampleBlob 7⟩) ([addFile] ++ []) :=
    ⟨hfits, fun _ _ => trivial⟩
  exact ⟨state, hrun, (replay_never_wedges (by decide) (by decide)
    (fun p hp => hplain p (hkeys hp)) hchain (by decide) hmeet hrun).1⟩

end Samples

end Maw
