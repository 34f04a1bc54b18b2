import Mathlib.Data.Sym.Sym2
import Maw.Oplog.Join
import Maw.Oplog.View

/-!
# The global view

The views of all workspaces are merged into one: the greatest epoch, the workspaces that are not
destroyed, and the join of their patch sets without the paths in conflict. The patch sets are
joined one after another, and of the conflicts of a path the first one is listed.

## Main definitions

* `GlobalView`, `computeGlobalViewFromViews` — the global view.
* `Rearranged` — lists of views with another order or with repetitions.
* `SameGlobalView` — global views that tell the same.

## Main results

* `globalView_rearranged_iff` — the order of the views and repetitions among them do not matter
  if all patch sets have one base epoch and no path has three different changes.
-/

namespace Maw.Oplog

/-- Whether the view has changes. -/
def MaterializedView.hasChanges (view : MaterializedView) : Bool :=
  view.patchSet.any fun ps => !ps.patches.keys.card = 0

/-- The state of one workspace within the global view. -/
structure WorkspaceSnapshot where
  epoch : Option EpochId
  hasChanges : Bool
  patchCount : ℕ
  description : Option String
  opCount : ℕ

def WorkspaceSnapshot.fromView (view : MaterializedView) : WorkspaceSnapshot where
  epoch := view.epoch
  hasChanges := view.hasChanges
  patchCount := view.patchSet.elim 0 fun ps => ps.patches.keys.card
  description := view.description
  opCount := view.opCount

/-- The merged view of all workspaces. -/
structure GlobalView where
  epoch : Option EpochId
  workspaceViews : FiniteMap String WorkspaceSnapshot
  mergedPatchSet : Option PatchSet
  conflicts : List PathConflict
  totalOps : ℕ
  cacheKey : List (String × String)

/-! ### Merging patch sets -/

/-- Join one more patch set; one with another base epoch is left out. -/
def joinNext (acc : PatchSet × List PathConflict) (ps : PatchSet) :
    PatchSet × List PathConflict :=
  match join acc.1 ps with
  | .ok result => (result.merged, acc.2 ++ result.conflicts)
  | .error _ => acc

/-- The conflicts in the order of their paths, one for each path. -/
def dedupConflicts (conflicts : List PathConflict) : List PathConflict :=
  KeyedSort.dedupBy (fun c => pathKey c.path)
    (conflicts.insertionSort fun a b => pathKey a.path ≤ pathKey b.path)

/-- The patches without the paths in conflict. -/
def removeConflicts (patches : FiniteMap String PatchValue) (conflicts : List PathConflict) :
    FiniteMap String PatchValue :=
  conflicts.foldl (fun patches c => patches.erase c.path) patches

/-- Join patch sets, one after another. -/
def mergePatchSets : List (NamedWorkspace × PatchSet) → Option PatchSet × List PathConflict
  | [] => (none, [])
  | [(_, ps)] => (some ps, [])
  | (_, first) :: rest =>
    let accumulated := rest.foldl (fun acc e => joinNext acc e.2) (first, [])
    let conflicts := dedupConflicts accumulated.2
    (some { accumulated.1 with patches := removeConflicts accumulated.1.patches conflicts },
      conflicts)

/-! ### The global view -/

/-- What has been collected from the views. -/
structure Collected where
  workspaceViews : FiniteMap String WorkspaceSnapshot
  maxEpoch : Option EpochId
  totalOps : ℕ
  patchSets : List (NamedWorkspace × PatchSet)

namespace Collected

def empty : Collected := ⟨∅, none, 0, []⟩

/-- The greater of the greatest epoch so far and another one, by their ids. -/
def updateMax (maxEpoch : Option EpochId) : Option EpochId → Option EpochId
  | none => maxEpoch
  | some epoch =>
    if maxEpoch.all fun current => epoch.asStr > current.asStr then some epoch else maxEpoch

/-- Collect one more view; destroyed workspaces are passed over. -/
def add (acc : Collected) (view : MaterializedView) : Collected :=
  if view.isDestroyed then acc
  else
    { workspaceViews := acc.workspaceViews.insert view.workspaceId.asStr (.fromView view)
      maxEpoch := updateMax acc.maxEpoch view.epoch
      totalOps := acc.totalOps + view.opCount
      patchSets := acc.patchSets ++ (view.patchSet.map fun ps => (view.workspaceId, ps)).toList }

end Collected

/-- Merge the views of workspaces. -/
def computeGlobalViewFromViews (views : List MaterializedView)
    (cacheKey : List (String × String)) : GlobalView :=
  let collected := views.foldl Collected.add .empty
  let merged := mergePatchSets collected.patchSets
  { epoch := collected.maxEpoch
    workspaceViews := collected.workspaceViews
    mergedPatchSet := merged.1
    conflicts := merged.2
    totalOps := collected.totalOps
    cacheKey }

/-! ### What several patch sets change -/

section Merge

variable {sets rest : List PatchSet} {first : PatchSet} {acc : PatchSet × List PathConflict}
  {path : String} {x y z : PatchValue}

/-- One of the patch sets changes the path so. -/
def ChangesAt (sets : List PatchSet) (path : String) (x : PatchValue) : Prop :=
  ∃ ps ∈ sets, ps.patches.lookup path = some x

/-- All patch sets are against one epoch. -/
def OneBase (sets : List PatchSet) : Prop :=
  ∀ ps ∈ sets, ∀ ps' ∈ sets, ps.baseEpoch = ps'.baseEpoch

/-- No path has three different changes. -/
def AtMostTwo (sets : List PatchSet) : Prop :=
  ∀ path x y z, ChangesAt sets path x → ChangesAt sets path y → ChangesAt sets path z →
    x = y ∨ y = z ∨ x = z

/-- The patch sets that have been joined, and their conflicts. -/
structure JoinedAll (sets : List PatchSet) (acc : PatchSet × List PathConflict) : Prop where
  changes : ∀ path x, acc.1.patches.lookup path = some x → ChangesAt sets path x
  conflicts : ∀ c ∈ acc.2, ∃ x y, ChangesAt sets c.path x ∧ ChangesAt sets c.path y ∧ x ≠ y ∧
    c = conflictOf c.path x y
  complete : ∀ path x, ChangesAt sets path x →
    acc.1.patches.lookup path = some x ∨ ∃ c ∈ acc.2, c.path = path

theorem joinNext_of_eq {ps : PatchSet} (h : acc.1.baseEpoch = ps.baseEpoch) :
    joinNext acc ps = (joined acc.1 ps, acc.2 ++ joinConflicts acc.1 ps) := by
  rw [joinNext, join_eq h]

/-- The base epoch is the one of the first patch set. -/
theorem baseEpoch_foldl_joinNext (rest : List PatchSet) (acc : PatchSet × List PathConflict) :
    (rest.foldl joinNext acc).1.baseEpoch = acc.1.baseEpoch := by
  induction rest generalizing acc with
  | nil => rfl
  | cons ps rest ih =>
    rw [List.foldl_cons, ih]
    by_cases h : acc.1.baseEpoch = ps.baseEpoch
    · rw [joinNext_of_eq h]
      rfl
    · rw [joinNext, join, if_pos h]

/-- The conflicts that were found first are listed first. -/
theorem prefix_foldl_joinNext (rest : List PatchSet) (acc : PatchSet × List PathConflict) :
    acc.2 <+: (rest.foldl joinNext acc).2 := by
  induction rest generalizing acc with
  | nil => exact List.prefix_refl _
  | cons ps rest ih =>
    refine List.IsPrefix.trans ?_ (ih (joinNext acc ps))
    rw [joinNext]
    split
    · exact List.prefix_append _ _
    · exact List.prefix_refl _

theorem ChangesAt.mono {sets' : List PatchSet} (h : ChangesAt sets path x)
    (hsub : ∀ ps ∈ sets, ps ∈ sets') : ChangesAt sets' path x := by
  obtain ⟨ps, hps, hx⟩ := h
  exact ⟨ps, hsub ps hps, hx⟩

/-- One more patch set is joined. -/
theorem JoinedAll.joinNext {ps : PatchSet} (h : JoinedAll sets acc)
    (hbase : acc.1.baseEpoch = ps.baseEpoch) : JoinedAll (sets ++ [ps]) (joinNext acc ps) := by
  have hold {path : String} {x : PatchValue} (hx : ChangesAt sets path x) :
      ChangesAt (sets ++ [ps]) path x := hx.mono fun ps hps => List.mem_append_left _ hps
  have hnew {path : String} {x : PatchValue} (hx : ps.patches.lookup path = some x) :
      ChangesAt (sets ++ [ps]) path x := ⟨ps, by simp, hx⟩
  rw [joinNext_of_eq hbase]
  refine ⟨fun path x hx => ?_, fun c hc => ?_, fun path x hx => ?_⟩
  · rw [lookup_joined] at hx
    rcases hl : acc.1.patches.lookup path with _ | l
    · rw [hl, joinChange_none_left] at hx
      exact hnew hx
    · rcases hr : ps.patches.lookup path with _ | r
      · rw [hl, hr, joinChange_none_right] at hx
        exact hold (h.changes path x (hl.trans hx))
      · rw [hl, hr, joinChange_some] at hx
        split_ifs at hx with heq
        exact hold (h.changes path x (hl.trans hx))
  · rcases List.mem_append.mp hc with hc | hc
    · obtain ⟨x, y, hx, hy, hne, heq⟩ := h.conflicts c hc
      exact ⟨x, y, hold hx, hold hy, hne, heq⟩
    · obtain ⟨l, r, hl, hr, hne, heq⟩ := mem_joinConflicts.mp hc
      exact ⟨l, r, hold (h.changes _ _ hl), hnew hr, hne, heq⟩
  · -- A change that is there stays, or comes into conflict.
    have hjoin (l r : Option PatchValue) (hlr : l = some x ∨ r = some x)
        (hl : acc.1.patches.lookup path = l) (hr : ps.patches.lookup path = r) :
        (joined acc.1 ps).patches.lookup path = some x ∨
          ∃ c ∈ acc.2 ++ joinConflicts acc.1 ps, c.path = path := by
      rcases l with _ | l
      · left
        rw [lookup_joined, hl, hr, joinChange_none_left]
        simpa using hlr
      rcases r with _ | r
      · left
        rw [lookup_joined, hl, hr, joinChange_none_right]
        simpa using hlr
      by_cases heq : l = r
      · left
        subst heq
        rw [lookup_joined, hl, hr, joinChange_some, if_pos rfl]
        simpa using hlr
      · right
        exact ⟨conflictOf path l r,
          List.mem_append_right _ (mem_joinConflicts.mpr ⟨l, r, hl, hr, heq, rfl⟩), rfl⟩
    obtain ⟨ps', hps', hx⟩ := hx
    rcases List.mem_append.mp hps' with hps' | hps'
    · rcases h.complete path x ⟨ps', hps', hx⟩ with hacc | ⟨c, hc, hpath⟩
      · exact hjoin _ _ (.inl hacc) rfl rfl
      · exact .inr ⟨c, List.mem_append_left _ hc, hpath⟩
    · rw [List.mem_singleton.mp hps'] at hx
      exact hjoin _ _ (.inr hx) rfl rfl

theorem joinedAll_singleton (first : PatchSet) : JoinedAll [first] (first, []) where
  changes path x hx := ⟨first, by simp, hx⟩
  conflicts c hc := absurd hc List.not_mem_nil
  complete path x hx := by
    obtain ⟨ps, hps, hx⟩ := hx
    exact .inl (List.mem_singleton.mp hps ▸ hx)

theorem joinedAll_foldl (h : JoinedAll sets acc) (hbase : ∀ ps ∈ rest, acc.1.baseEpoch = ps.baseEpoch) :
    JoinedAll (sets ++ rest) (rest.foldl joinNext acc) := by
  induction rest generalizing sets acc with
  | nil => simpa using h
  | cons ps rest ih =>
    have hps : acc.1.baseEpoch = ps.baseEpoch := hbase ps List.mem_cons_self
    have hnext := ih (h.joinNext hps) fun ps' hps' => by
      rw [joinNext_of_eq hps]
      exact hbase ps' (List.mem_cons_of_mem _ hps')
    simpa using hnext

/-! ### The conflicts that are listed -/

theorem sorted_dedupConflicts (conflicts : List PathConflict) :
    (dedupConflicts conflicts).Pairwise fun a b => pathKey a.path < pathKey b.path := by
  have : Std.Total fun a b : PathConflict => pathKey a.path ≤ pathKey b.path :=
    ⟨fun a b => le_total _ _⟩
  have : IsTrans PathConflict fun a b => pathKey a.path ≤ pathKey b.path :=
    ⟨fun _ _ _ => le_trans⟩
  exact KeyedSort.dedupBy_pairwise (List.pairwise_insertionSort _ conflicts)

theorem mem_of_mem_dedupConflicts {conflicts : List PathConflict} {c : PathConflict}
    (h : c ∈ dedupConflicts conflicts) : c ∈ conflicts :=
  (List.perm_insertionSort _ _).mem_iff.mp ((KeyedSort.dedupBy_sublist _).subset h)

/-- Of the conflicts of a path the first one is listed. -/
theorem find?_dedupConflicts (conflicts : List PathConflict) (path : String) :
    (dedupConflicts conflicts).find? (fun c => c.path = path) =
      conflicts.find? fun c => c.path = path := by
  have hdedup := KeyedSort.find?_dedupBy (fun c : PathConflict => pathKey c.path)
    (conflicts.insertionSort fun a b => pathKey a.path ≤ pathKey b.path) (pathKey path)
  have hsort := KeyedSort.find?_insertionSort (fun c : PathConflict => pathKey c.path)
    conflicts (pathKey path)
  have hfirst := hdedup.trans hsort
  simp only [pathKey_injective.eq_iff] at hfirst
  exact hfirst

theorem exists_mem_dedupConflicts {conflicts : List PathConflict} {path : String} :
    (∃ c ∈ dedupConflicts conflicts, c.path = path) ↔ ∃ c ∈ conflicts, c.path = path := by
  constructor
  · rintro ⟨c, hc, hpath⟩
    exact ⟨c, mem_of_mem_dedupConflicts hc, hpath⟩
  · rintro ⟨c, hc, hpath⟩
    have hmem : c ∈ conflicts.insertionSort fun a b => pathKey a.path ≤ pathKey b.path :=
      (List.perm_insertionSort _ _).mem_iff.mpr hc
    obtain ⟨c', hc', hkey⟩ := KeyedSort.exists_mem_dedupBy (fun c => pathKey c.path) hmem
    exact ⟨c', hc', (pathKey_injective hkey).trans hpath⟩

theorem lookup_removeConflicts (patches : FiniteMap String PatchValue)
    (conflicts : List PathConflict) (path : String) :
    (removeConflicts patches conflicts).lookup path =
      if ∃ c ∈ conflicts, c.path = path then none else patches.lookup path := by
  induction conflicts generalizing patches with
  | nil => simp [removeConflicts]
  | cons c conflicts ih =>
    rw [removeConflicts, List.foldl_cons, ← removeConflicts, ih, FiniteMap.lookup_erase]
    by_cases hc : c.path = path
    · simp [hc]
    · simp [hc, Ne.symm hc]

/-- Two lists of conflicts in order with the same members are the same. -/
theorem eq_of_mem_iff {cs cs' : List PathConflict}
    (h : cs.Pairwise fun a b => pathKey a.path < pathKey b.path)
    (h' : cs'.Pairwise fun a b => pathKey a.path < pathKey b.path) (hmem : ∀ c, c ∈ cs ↔ c ∈ cs') :
    cs = cs' := by
  have hnodup {cs : List PathConflict}
      (h : cs.Pairwise fun a b => pathKey a.path < pathKey b.path) : cs.Nodup :=
    h.imp fun hlt heq => absurd (heq ▸ hlt) (lt_irrefl _)
  refine List.Perm.eq_of_pairwise (fun a b _ _ hab hba => absurd (hab.trans hba) (lt_irrefl _)) h h' ?_
  exact (List.perm_ext_iff_of_nodup (hnodup h) (hnodup h')).mpr hmem

/-! ### The merged patch set -/

/-- What several patch sets with one base epoch are merged to. -/
structure MergesTo (sets : List PatchSet) (merged : PatchSet) (conflicts : List PathConflict) :
    Prop where
  baseEpoch : ∀ ps ∈ sets, merged.baseEpoch = ps.baseEpoch
  sorted : conflicts.Pairwise fun a b => pathKey a.path < pathKey b.path
  conflict : ∀ c ∈ conflicts, ∃ x y, ChangesAt sets c.path x ∧ ChangesAt sets c.path y ∧ x ≠ y ∧
    c = conflictOf c.path x y
  listed : ∀ path x y, ChangesAt sets path x → ChangesAt sets path y → x ≠ y →
    ∃ c ∈ conflicts, c.path = path
  lookup : ∀ path x, merged.patches.lookup path = some x ↔
    ChangesAt sets path x ∧ ∀ y, ChangesAt sets path y → y = x

theorem mergePatchSets_cons (ws : NamedWorkspace) (first : PatchSet)
    (rest : List (NamedWorkspace × PatchSet)) :
    mergePatchSets ((ws, first) :: rest) =
      (some { ((rest.map Prod.snd).foldl joinNext (first, [])).1 with
          patches := removeConflicts ((rest.map Prod.snd).foldl joinNext (first, [])).1.patches
            (dedupConflicts ((rest.map Prod.snd).foldl joinNext (first, [])).2) },
        dedupConflicts ((rest.map Prod.snd).foldl joinNext (first, [])).2) := by
  rw [List.foldl_map]
  cases rest with
  | nil => rfl
  | cons e rest => rfl

/-- A change is merged if it is the only one of its path; the others are in conflict. -/
theorem mergesTo_mergePatchSets (ws : NamedWorkspace) (first : PatchSet)
    (rest : List (NamedWorkspace × PatchSet)) (hbase : OneBase (first :: rest.map Prod.snd)) :
    ∃ merged conflicts, mergePatchSets ((ws, first) :: rest) = (some merged, conflicts) ∧
      MergesTo (first :: rest.map Prod.snd) merged conflicts := by
  refine ⟨_, _, mergePatchSets_cons ws first rest, ?_⟩
  have hjoined : JoinedAll (first :: rest.map Prod.snd) _ :=
    joinedAll_foldl (joinedAll_singleton first) fun ps hps =>
      hbase first List.mem_cons_self ps (List.mem_cons_of_mem _ hps)
  refine ⟨fun ps hps => ?_, sorted_dedupConflicts _, fun c hc => ?_, fun path x y hx hy hne => ?_,
    fun path x => ?_⟩
  · exact (baseEpoch_foldl_joinNext _ _).trans (hbase first List.mem_cons_self ps hps)
  · exact hjoined.conflicts c (mem_of_mem_dedupConflicts hc)
  · rw [exists_mem_dedupConflicts]
    rcases hjoined.complete path x hx with hlx | hc
    · rcases hjoined.complete path y hy with hly | hc
      · exact absurd (Option.some.inj (hlx.symm.trans hly)) hne
      · exact hc
    · exact hc
  · simp only [lookup_removeConflicts, exists_mem_dedupConflicts]
    split_ifs with hc
    · obtain ⟨c, hc, rfl⟩ := hc
      obtain ⟨y, z, hy, hz, hne, -⟩ := hjoined.conflicts c hc
      refine ⟨fun h => (by cases h), fun h => ?_⟩
      exact absurd ((h.2 y hy).trans (h.2 z hz).symm) hne
    · have hlookup (y : PatchValue) (hy : ChangesAt (first :: rest.map Prod.snd) path y) :
          ((rest.map Prod.snd).foldl joinNext (first, [])).1.patches.lookup path = some y :=
        (hjoined.complete path y hy).resolve_right hc
      refine ⟨fun h => ⟨hjoined.changes path x h, fun y hy => ?_⟩, fun h => hlookup x h.1⟩
      exact Option.some.inj ((hlookup y hy).symm.trans h)

/-- Where no path has three changes, the conflicts are those of any two different ones. -/
theorem MergesTo.mem_conflicts {merged : PatchSet} {conflicts : List PathConflict}
    (h : MergesTo sets merged conflicts) (htwo : AtMostTwo sets) (c : PathConflict) :
    c ∈ conflicts ↔ ∃ x y, ChangesAt sets c.path x ∧ ChangesAt sets c.path y ∧ x ≠ y ∧
      c = conflictOf c.path x y := by
  refine ⟨h.conflict c, ?_⟩
  rintro ⟨x, y, hx, hy, hne, heq⟩
  obtain ⟨c', hc', hpath⟩ := h.listed c.path x y hx hy hne
  obtain ⟨x', y', hx', hy', hne', heq'⟩ := h.conflict c' hc'
  rw [hpath] at hx' hy' heq'
  have hsame : conflictOf c.path x' y' = conflictOf c.path x y := by
    rcases htwo c.path x y x' hx hy hx' with hxy | hyx | hxx
    · exact absurd hxy hne
    · subst hyx
      rcases htwo c.path x y y' hx hy hy' with hxy | hyy | rfl
      · exact absurd hxy hne
      · exact absurd hyy hne'
      · exact conflictOf_comm _ _ _
    · subst hxx
      rcases htwo c.path x y y' hx hy hy' with hxy | rfl | hxy
      · exact absurd hxy hne
      · rfl
      · exact absurd hxy hne'
  rwa [heq, ← hsame, ← heq']

/-- Then the merged patch set and its conflicts are told by the changes alone. -/
theorem MergesTo.unique {sets' : List PatchSet} {merged merged' : PatchSet}
    {conflicts conflicts' : List PathConflict} (h : MergesTo sets merged conflicts)
    (h' : MergesTo sets' merged' conflicts') (htwo : AtMostTwo sets)
    (hsets : ∀ ps, ps ∈ sets ↔ ps ∈ sets') (hne : sets ≠ []) :
    merged = merged' ∧ conflicts = conflicts' := by
  have hchanges (path : String) (x : PatchValue) :
      ChangesAt sets path x ↔ ChangesAt sets' path x :=
    ⟨fun hx => hx.mono fun ps => (hsets ps).mp, fun hx => hx.mono fun ps => (hsets ps).mpr⟩
  have htwo' : AtMostTwo sets' := by
    simpa only [AtMostTwo, hchanges] using htwo
  constructor
  · obtain ⟨ps, hps⟩ := List.exists_mem_of_ne_nil _ hne
    have hbase : merged.baseEpoch = merged'.baseEpoch :=
      (h.baseEpoch ps hps).trans (h'.baseEpoch ps ((hsets ps).mp hps)).symm
    refine PatchSet.ext_lookup hbase fun path => ?_
    ext x
    rw [h.lookup, h'.lookup]
    simp only [hchanges]
  · refine eq_of_mem_iff h.sorted h'.sorted fun c => ?_
    rw [h.mem_conflicts htwo, h'.mem_conflicts htwo']
    simp only [hchanges]

/-- Of the conflicts of a path the first one is that of the first two patch sets, if they change
it in different ways. -/
theorem conflict_of_first (ws ws' : NamedWorkspace) {second : PatchSet}
    (rest : List (NamedWorkspace × PatchSet)) (hbase : first.baseEpoch = second.baseEpoch)
    (hx : first.patches.lookup path = some x) (hy : second.patches.lookup path = some y)
    (hne : x ≠ y) :
    (mergePatchSets ((ws, first) :: (ws', second) :: rest)).2.find? (fun c => c.path = path) =
      some (conflictOf path x y) := by
  rw [mergePatchSets_cons, List.map_cons, List.foldl_cons]
  dsimp only
  rw [find?_dedupConflicts, joinNext_of_eq hbase, List.nil_append]
  have hmem : conflictOf path x y ∈ joinConflicts first second :=
    mem_joinConflicts.mpr ⟨x, y, hx, hy, hne, rfl⟩
  have hfirst : (joinConflicts first second).find? (fun c => c.path = path) =
      some (conflictOf path x y) := by
    rcases hfind : (joinConflicts first second).find? (fun c => c.path = path) with _ | c
    · have hnone := List.find?_eq_none.mp hfind _ hmem
      exact absurd hnone (by simp [conflictOf])
    · obtain rfl : c.path = path := by simpa using List.find?_some hfind
      obtain ⟨l, r, hl, hr, -, heq⟩ := mem_joinConflicts.mp (List.mem_of_find?_eq_some hfind)
      obtain rfl := Option.some.inj (hl.symm.trans hx)
      obtain rfl := Option.some.inj (hr.symm.trans hy)
      exact hfind.trans (congrArg some heq)
  obtain ⟨more, hmore⟩ := prefix_foldl_joinNext (rest.map Prod.snd)
    (joined first second, joinConflicts first second)
  rw [← hmore, List.find?_append, hfirst, Option.some_or]

theorem merged_of_first (ws : NamedWorkspace) (first : PatchSet)
    (rest : List (NamedWorkspace × PatchSet)) :
    (mergePatchSets ((ws, first) :: rest)).1.map PatchSet.baseEpoch = some first.baseEpoch := by
  rw [mergePatchSets_cons, Option.map_some, Option.some_inj]
  exact baseEpoch_foldl_joinNext (rest.map Prod.snd) (first, [])

end Merge

/-! ### What is collected -/

section Collect

variable {views views' : List MaterializedView}

/-- The patch set of a workspace that is not destroyed. -/
def activePatchSet (view : MaterializedView) : Option (NamedWorkspace × PatchSet) :=
  if view.isDestroyed then none else view.patchSet.map fun ps => (view.workspaceId, ps)

/-- The patch sets of the workspaces that are not destroyed. -/
def patchSets (views : List MaterializedView) : List PatchSet :=
  (views.filterMap activePatchSet).map Prod.snd

/-- An epoch of a workspace that is not destroyed. -/
def HasEpoch (views : List MaterializedView) (epoch : EpochId) : Prop :=
  ∃ view ∈ views, view.isDestroyed = false ∧ view.epoch = some epoch

/-- The greatest epoch of the views. -/
def IsMaxEpoch (views : List MaterializedView) (maxEpoch : Option EpochId) : Prop :=
  (∀ epoch, maxEpoch = some epoch → HasEpoch views epoch) ∧
    ∀ epoch, HasEpoch views epoch → ∃ top, maxEpoch = some top ∧ epoch.asStr ≤ top.asStr

theorem asStr_injective : Function.Injective EpochId.asStr := fun a b h => by
  obtain ⟨a⟩ := a
  obtain ⟨b⟩ := b
  have hoid : a = b := PatchValue.asStr_injective h
  rw [hoid]

theorem IsMaxEpoch.unique {m m' : Option EpochId} (h : IsMaxEpoch views m)
    (h' : IsMaxEpoch views' m') (hviews : ∀ view, view ∈ views ↔ view ∈ views') : m = m' := by
  have hepochs (epoch : EpochId) : HasEpoch views epoch ↔ HasEpoch views' epoch := by
    simp only [HasEpoch, hviews]
  rcases m with _ | top
  · rcases m' with _ | top'
    · rfl
    · obtain ⟨top, htop, -⟩ := h.2 top' ((hepochs top').mpr (h'.1 top' rfl))
      cases htop
  · obtain ⟨top', rfl, hle⟩ := h'.2 top ((hepochs top).mp (h.1 top rfl))
    obtain ⟨top₂, htop₂, hle'⟩ := h.2 top' ((hepochs top').mpr (h'.1 top' rfl))
    obtain rfl := Option.some.inj htop₂
    rw [asStr_injective (le_antisymm hle hle')]

theorem hasEpoch_append {view : MaterializedView} {epoch : EpochId} :
    HasEpoch (views ++ [view]) epoch ↔
      HasEpoch views epoch ∨ view.isDestroyed = false ∧ view.epoch = some epoch := by
  simp only [HasEpoch, List.mem_append, List.mem_singleton]
  constructor
  · rintro ⟨v, hv | rfl, h⟩
    · exact .inl ⟨v, hv, h⟩
    · exact .inr h
  · rintro (⟨v, hv, h⟩ | h)
    · exact ⟨v, .inl hv, h⟩
    · exact ⟨view, .inr rfl, h⟩

/-- The greatest epoch after one more view. -/
theorem IsMaxEpoch.updateMax {view : MaterializedView} {m : Option EpochId}
    (h : IsMaxEpoch views m) (hview : view.isDestroyed = false) :
    IsMaxEpoch (views ++ [view]) (Collected.updateMax m view.epoch) := by
  simp only [IsMaxEpoch, hasEpoch_append, hview, true_and]
  rcases hepoch : view.epoch with _ | epoch
  · rw [Collected.updateMax]
    exact ⟨fun top htop => .inl (h.1 top htop), fun e he => h.2 e (he.resolve_right (by simp))⟩
  · rw [Collected.updateMax]
    rcases m with _ | current
    · refine ⟨fun top htop => .inr htop, fun e he => ?_⟩
      rcases he with he | he
      · obtain ⟨top, htop, -⟩ := h.2 e he
        cases htop
      · exact ⟨e, he, le_rfl⟩
    · by_cases hlt : current.asStr < epoch.asStr
      · rw [if_pos (by simpa using hlt)]
        refine ⟨fun top htop => .inr htop, fun e he => ?_⟩
        rcases he with he | he
        · obtain ⟨top, htop, hle⟩ := h.2 e he
          obtain rfl := Option.some.inj htop
          exact ⟨epoch, rfl, hle.trans hlt.le⟩
        · exact ⟨e, he, le_rfl⟩
      · rw [if_neg (by simpa using hlt)]
        refine ⟨fun top htop => .inl (h.1 top htop), fun e he => ?_⟩
        rcases he with he | he
        · exact h.2 e he
        · obtain rfl := Option.some.inj he
          exact ⟨current, rfl, not_lt.mp hlt⟩

/-- What is collected from the views of all workspaces. -/
theorem collected_eq (views : List MaterializedView) :
    (views.foldl Collected.add .empty).patchSets = views.filterMap activePatchSet ∧
      (∀ name, name ∈ (views.foldl Collected.add .empty).workspaceViews ↔
        ∃ view ∈ views, view.isDestroyed = false ∧ view.workspaceId.asStr = name) ∧
      IsMaxEpoch views (views.foldl Collected.add .empty).maxEpoch := by
  induction views using List.reverseRecOn with
  | nil =>
    refine ⟨rfl, fun name => ?_, fun epoch h => (by cases h), fun epoch h => ?_⟩
    · simp [Collected.empty, Finmap.notMem_empty]
    · obtain ⟨view, hview, -⟩ := h
      exact absurd hview List.not_mem_nil
  | append_singleton views view ih =>
    obtain ⟨hsets, hnames, hmax⟩ := ih
    rw [List.foldl_append, List.foldl_cons, List.foldl_nil, Collected.add]
    rcases hview : view.isDestroyed with _ | _
    · refine ⟨?_, fun name => ?_, hmax.updateMax hview⟩
      · rw [if_neg Bool.false_ne_true, List.filterMap_append, ← hsets]
        simp only [List.filterMap_cons, List.filterMap_nil, activePatchSet, hview,
          Bool.false_eq_true, if_false]
        cases view.patchSet <;> rfl
      · rw [if_neg Bool.false_ne_true, Finmap.mem_insert, hnames]
        constructor
        · rintro (rfl | ⟨v, hv, h⟩)
          · exact ⟨view, by simp, hview, rfl⟩
          · exact ⟨v, List.mem_append_left _ hv, h⟩
        · rintro ⟨v, hv, hdestroyed, rfl⟩
          rcases List.mem_append.mp hv with hv | hv
          · exact .inr ⟨v, hv, hdestroyed, rfl⟩
          · exact .inl (by rw [List.mem_singleton.mp hv])
    · rw [if_pos rfl]
      refine ⟨?_, fun name => ?_, ?_⟩
      · rw [hsets, List.filterMap_append]
        simp [activePatchSet, hview]
      · rw [hnames]
        refine exists_congr fun v => ⟨fun h => ⟨List.mem_append_left _ h.1, h.2⟩, fun h => ?_⟩
        rcases List.mem_append.mp h.1 with hv | hv
        · exact ⟨hv, h.2⟩
        · rw [List.mem_singleton.mp hv, hview] at h
          exact absurd h.2.1 Bool.true_eq_false.mp
      · simpa only [IsMaxEpoch, hasEpoch_append, hview, Bool.true_eq_false, false_and, or_false]
          using hmax

end Collect

/-! ### Rearranged views -/

section Rearrange

variable {views views' : List MaterializedView}

/-- The views in another order, or with some of them repeated. -/
inductive Rearranged (views : List MaterializedView) : List MaterializedView → Prop
  | refl : Rearranged views views
  | perm {views' views'' : List MaterializedView} (h : Rearranged views views')
      (hperm : views'.Perm views'') : Rearranged views views''
  | duplicate {views' : List MaterializedView} {view : MaterializedView}
      (h : Rearranged views views') (hview : view ∈ views') : Rearranged views (view :: views')

/-- A conflict without the order of its sides. -/
def PathConflict.unordered (c : PathConflict) : String × Sym2 PatchValue × ConflictReason :=
  (c.path, s(c.sides.1, c.sides.2), c.reason)

/-- Global views with the same epoch, merged patches, conflicts and workspaces. -/
structure SameGlobalView (g g' : GlobalView) : Prop where
  epoch : g.epoch = g'.epoch
  mergedPatchSet : g.mergedPatchSet = g'.mergedPatchSet
  conflicts : g.conflicts.map PathConflict.unordered = g'.conflicts.map PathConflict.unordered
  workspaces : g.workspaceViews.keys = g'.workspaceViews.keys

theorem Rearranged.mem_iff (h : Rearranged views views') (view : MaterializedView) :
    view ∈ views ↔ view ∈ views' := by
  induction h with
  | refl => exact Iff.rfl
  | perm _ hperm ih => rw [ih, hperm.mem_iff]
  | @duplicate views' v _ hv ih =>
    rw [ih, List.mem_cons]
    refine ⟨.inr, fun h => ?_⟩
    rcases h with rfl | h
    · exact hv
    · exact h

theorem mem_patchSets {ps : PatchSet} : ps ∈ patchSets views ↔
    ∃ view ∈ views, view.isDestroyed = false ∧ view.patchSet = some ps := by
  simp only [patchSets, List.mem_map, List.mem_filterMap, activePatchSet]
  constructor
  · rintro ⟨e, ⟨view, hview, he⟩, rfl⟩
    split_ifs at he with hdestroyed
    obtain ⟨ps, hps, rfl⟩ := Option.map_eq_some_iff.mp he
    exact ⟨view, hview, by simpa using hdestroyed, hps⟩
  · rintro ⟨view, hview, hdestroyed, hps⟩
    exact ⟨(view.workspaceId, ps), ⟨view, hview, by simp [hdestroyed, hps]⟩, rfl⟩

/-- Views of which the patch sets are told apart only by what they change lead to one global
view, whatever their order. -/
theorem sameGlobalView_of_mem_iff (hviews : ∀ view, view ∈ views ↔ view ∈ views')
    (hbase : OneBase (patchSets views)) (htwo : AtMostTwo (patchSets views))
    (cacheKey : List (String × String)) :
    SameGlobalView (computeGlobalViewFromViews views cacheKey)
      (computeGlobalViewFromViews views' cacheKey) := by
  obtain ⟨hsets, hnames, hmax⟩ := collected_eq views
  obtain ⟨hsets', hnames', hmax'⟩ := collected_eq views'
  have hmem (ps : PatchSet) : ps ∈ patchSets views ↔ ps ∈ patchSets views' := by
    simp only [mem_patchSets, hviews]
  have hmerged : mergePatchSets (views.filterMap activePatchSet) =
      mergePatchSets (views'.filterMap activePatchSet) := by
    rcases hl : views.filterMap activePatchSet with _ | ⟨⟨ws, first⟩, rest⟩
    · have hnil : patchSets views' = [] := by
        rw [List.eq_nil_iff_forall_not_mem]
        intro ps hps
        rw [← hmem, patchSets, hl] at hps
        exact absurd hps List.not_mem_nil
      rw [List.map_eq_nil_iff.mp hnil]
    · rcases hl' : views'.filterMap activePatchSet with _ | ⟨⟨ws', first'⟩, rest'⟩
      · have hfirst : first ∈ patchSets views' := (hmem first).mp (by simp [patchSets, hl])
        rw [patchSets, hl'] at hfirst
        exact absurd hfirst List.not_mem_nil
      · have hlist : patchSets views = first :: rest.map Prod.snd := by rw [patchSets, hl]; rfl
        have hlist' : patchSets views' = first' :: rest'.map Prod.snd := by
          rw [patchSets, hl']
          rfl
        have hbase' : OneBase (patchSets views') := by
          simpa only [OneBase, hmem] using hbase
        rw [hlist] at hbase htwo hmem
        rw [hlist'] at hbase' hmem
        obtain ⟨merged, conflicts, heq, hmerges⟩ := mergesTo_mergePatchSets ws first rest hbase
        obtain ⟨merged', conflicts', heq', hmerges'⟩ :=
          mergesTo_mergePatchSets ws' first' rest' hbase'
        obtain ⟨rfl, rfl⟩ := hmerges.unique hmerges' htwo hmem (List.cons_ne_nil _ _)
        rw [heq, heq']
  refine ⟨hmax.unique hmax' hviews, ?_, ?_, ?_⟩
  · rw [computeGlobalViewFromViews, computeGlobalViewFromViews, hsets, hsets', hmerged]
  · rw [computeGlobalViewFromViews, computeGlobalViewFromViews, hsets, hsets', hmerged]
  · ext name
    rw [Finmap.mem_keys, Finmap.mem_keys, computeGlobalViewFromViews, computeGlobalViewFromViews,
      hnames, hnames']
    simp only [hviews]

/-- A view with the patch set can come first. -/
theorem exists_perm_of_mem {ps : PatchSet} (h : ps ∈ patchSets views) :
    ∃ view rest ws, views.Perm (view :: rest) ∧ activePatchSet view = some (ws, ps) := by
  obtain ⟨e, he, rfl⟩ := List.mem_map.mp h
  obtain ⟨view, hview, heq⟩ := List.mem_filterMap.mp he
  obtain ⟨before, after, rfl⟩ := List.append_of_mem hview
  exact ⟨view, before ++ after, e.1, List.perm_middle, heq⟩

/-- Views with two different patch sets can come first. -/
theorem exists_perm_of_mem_of_mem {ps ps' : PatchSet} (h : ps ∈ patchSets views)
    (h' : ps' ∈ patchSets views) (hne : ps ≠ ps') :
    ∃ view view' rest ws ws', views.Perm (view :: view' :: rest) ∧
      activePatchSet view = some (ws, ps) ∧ activePatchSet view' = some (ws', ps') := by
  obtain ⟨view, rest, ws, hperm, hview⟩ := exists_perm_of_mem h
  have hrest : ps' ∈ patchSets rest := by
    have hmem := (hperm.filterMap activePatchSet).map Prod.snd |>.mem_iff.mp h'
    rw [List.filterMap_cons_some hview, List.map_cons] at hmem
    exact (List.mem_cons.mp hmem).resolve_left (Ne.symm hne)
  obtain ⟨view', rest', ws', hperm', hview'⟩ := exists_perm_of_mem hrest
  exact ⟨view, view', rest', ws, ws', hperm.trans (hperm'.cons view), hview, hview'⟩

theorem baseEpoch_of_first {view : MaterializedView} {rest : List MaterializedView}
    {ws : NamedWorkspace} {ps : PatchSet} (hview : activePatchSet view = some (ws, ps))
    (cacheKey : List (String × String)) :
    (computeGlobalViewFromViews (view :: rest) cacheKey).mergedPatchSet.map PatchSet.baseEpoch =
      some ps.baseEpoch := by
  rw [computeGlobalViewFromViews, (collected_eq _).1, List.filterMap_cons_some hview]
  exact merged_of_first ws ps _

theorem conflict_of_firstViews {view view' : MaterializedView} {rest : List MaterializedView}
    {ws ws' : NamedWorkspace} {ps ps' : PatchSet} {path : String} {x y : PatchValue}
    (hview : activePatchSet view = some (ws, ps)) (hview' : activePatchSet view' = some (ws', ps'))
    (hbase : ps.baseEpoch = ps'.baseEpoch) (hx : ps.patches.lookup path = some x)
    (hy : ps'.patches.lookup path = some y) (hne : x ≠ y) (cacheKey : List (String × String)) :
    (computeGlobalViewFromViews (view :: view' :: rest) cacheKey).conflicts.find?
      (fun c => c.path = path) = some (conflictOf path x y) := by
  rw [computeGlobalViewFromViews, (collected_eq _).1, List.filterMap_cons_some hview,
    List.filterMap_cons_some hview']
  exact conflict_of_first ws ws' _ hbase hx hy hne

theorem unordered_conflictOf (path : String) (x y : PatchValue) :
    (conflictOf path x y).unordered = (path, s(x, y), classifyConflict x y) := by
  rw [PathConflict.unordered, conflictOf, sortedSides]
  split_ifs
  · rfl
  · rw [Sym2.eq_swap]

/-- The conflict that is listed for a path, without the order of its sides. -/
theorem find?_unordered {g g' : GlobalView} (h : SameGlobalView g g') (path : String) :
    (g.conflicts.find? fun c => c.path = path).map PathConflict.unordered =
      (g'.conflicts.find? fun c => c.path = path).map PathConflict.unordered := by
  have hfind (cs : List PathConflict) : (cs.find? fun c => c.path = path).map
      PathConflict.unordered = (cs.map PathConflict.unordered).find? fun c => c.1 = path := by
    rw [List.find?_map]
    rfl
  rw [hfind, hfind, h.conflicts]

/-- The global view does not depend on the order of the views and on repetitions if and only if
their patch sets have one base epoch and no path has three different changes. -/
theorem globalView_rearranged_iff (views : List MaterializedView)
    (cacheKey : List (String × String)) :
    (∀ views', Rearranged views views' →
        SameGlobalView (computeGlobalViewFromViews views cacheKey)
          (computeGlobalViewFromViews views' cacheKey)) ↔
      OneBase (patchSets views) ∧ AtMostTwo (patchSets views) := by
  constructor
  · intro hsame
    have hbase : OneBase (patchSets views) := by
      intro ps hps ps' hps'
      obtain ⟨view, rest, ws, hperm, hview⟩ := exists_perm_of_mem hps
      obtain ⟨view', rest', ws', hperm', hview'⟩ := exists_perm_of_mem hps'
      have hmerged := (hsame _ (.perm .refl hperm)).mergedPatchSet.symm.trans
        (hsame _ (.perm .refl hperm')).mergedPatchSet
      have hepoch := congrArg (Option.map PatchSet.baseEpoch) hmerged
      rw [baseEpoch_of_first hview, baseEpoch_of_first hview'] at hepoch
      exact Option.some.inj hepoch
    refine ⟨hbase, ?_⟩
    rintro path x y z ⟨ps, hps, hx⟩ ⟨ps', hps', hy⟩ ⟨ps'', hps'', hz⟩
    by_contra hdiff
    rw [not_or, not_or] at hdiff
    obtain ⟨hxy, hyz, hxz⟩ := hdiff
    -- The first two of the three changes that are joined are the sides of the conflict.
    have hfirst {y : PatchValue} {ps' : PatchSet} (hps' : ps' ∈ patchSets views)
        (hy : ps'.patches.lookup path = some y) (hxy : x ≠ y) :
        ((computeGlobalViewFromViews views cacheKey).conflicts.find? fun c => c.path = path).map
          PathConflict.unordered = some (path, s(x, y), classifyConflict x y) := by
      have hne : ps ≠ ps' := by
        rintro rfl
        exact hxy (Option.some.inj (hx.symm.trans hy))
      obtain ⟨view, view', rest, ws, ws', hperm, hview, hview'⟩ :=
        exists_perm_of_mem_of_mem hps hps' hne
      rw [find?_unordered (hsame _ (.perm .refl hperm)),
        conflict_of_firstViews hview hview' (hbase ps hps ps' hps') hx hy hxy, Option.map_some,
        unordered_conflictOf]
    have hsides := (hfirst hps' hy hxy).symm.trans (hfirst hps'' hz hxz)
    rw [Option.some_inj, Prod.mk.injEq, Prod.mk.injEq] at hsides
    exact hyz (Sym2.congr_right.mp hsides.2.1)
  · rintro ⟨hbase, htwo⟩ views' hrearranged
    exact sameGlobalView_of_mem_iff hrearranged.mem_iff hbase htwo cacheKey

/-- The view of a workspace that adds one file. -/
def sampleView (name : String) (h : WorkspaceId.validate ⟨name⟩ = true) (n : ℕ) :
    MaterializedView :=
  { MaterializedView.empty ⟨⟨name⟩, h⟩ with patchSet := some (sampleAdd n) }

/-- Of three workspaces that add a file with three contents, those of the first two views are in
the listed conflict. -/
theorem globalView_not_rearranged : ∃ views views', Rearranged views views' ∧
    ¬ SameGlobalView (computeGlobalViewFromViews views [])
      (computeGlobalViewFromViews views' []) := by
  refine ⟨[sampleView "agent-1" (by decide) 1, sampleView "agent-2" (by decide) 2,
    sampleView "agent-3" (by decide) 3], [sampleView "agent-1" (by decide) 1,
      sampleView "agent-3" (by decide) 3, sampleView "agent-2" (by decide) 2],
    .perm .refl (.cons _ (.swap _ _ _)), fun hsame => ?_⟩
  have hlookup (n : ℕ) : (sampleAdd n).patches.lookup "src/lib.rs" = some _ :=
    Finmap.lookup_insert _
  have hfind := find?_unordered hsame "src/lib.rs"
  rw [conflict_of_firstViews rfl rfl (baseEpoch_sampleAdd 1 2) (hlookup 1) (hlookup 2) (by decide),
    conflict_of_firstViews rfl rfl (baseEpoch_sampleAdd 1 3) (hlookup 1) (hlookup 3) (by decide),
    Option.map_some, Option.map_some, unordered_conflictOf, unordered_conflictOf] at hfind
  rw [Option.some_inj, Prod.mk.injEq, Prod.mk.injEq] at hfind
  exact absurd (Sym2.congr_right.mp hfind.2.1) (by decide)

end Rearrange

end Maw.Oplog
