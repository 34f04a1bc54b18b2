import Maw.Library.MergeFold
import Maw.Merge.Accounting

/-!
# The inputs of a build

The build phase merges the patch sets of its workspaces into the current epoch. A workspace may
have been created at an older epoch; it is stale. For the paths that the epochs changed since
then and a workspace changes too, the build adds a patch set with the current contents, and takes
the contents at a stale epoch as the base of the merge.

## Main definitions

* `History` — the commits that the build reads.
* `injectEpochDelta` — the additional patch set and the overrides of the base.
* `readBaseContents` — the contents at the current epoch.
* `prepareResolve` — the partition and the base contents that resolution gets.

## Main results

* `prepareResolve_spec` — the entries and the base of a path in the epoch delta.
-/

open ExceptRun

namespace Maw

/-- The commits that a build reads. -/
structure History where
  repo : Repo
  /-- The tree of a commit. -/
  treeOf : EpochId → Option GitTree
  /-- The merge base of two commits. -/
  mergeBase : EpochId → EpochId → Option EpochId

inductive ReadBaseError
  | notFound
  | gitError
  deriving DecidableEq, Repr

inductive BuildPhaseError
  | diffTree (old new : EpochId)
  | readBase (path : Path)
  | resolve (error : ResolveError)
  deriving DecidableEq, Repr

section Definitions

variable (history : History)

/-- The content of a file, an executable or a link of an epoch. -/
def readFileAtEpoch (epoch : EpochId) (p : Path) : Except ReadBaseError Bytes :=
  match (history.treeOf epoch).bind fun tree => tree.lookup p with
  | none => .error .notFound
  | some entry =>
    match entry.mode with
    | .blob | .blobExecutable | .link =>
      match history.repo.readBlob entry.oid with
      | some content => .ok content
      | none => .error .gitError
    | .tree | .commit => .error .notFound

/-- The content of a path, if there is one. -/
def readOptional (epoch : EpochId) (p : Path) : Except BuildPhaseError (Option Bytes) :=
  match readFileAtEpoch history epoch p with
  | .ok content => .ok (some content)
  | .error .notFound => .ok none
  | .error .gitError => .error (.readBase p)

/-- The epoch that a workspace was created at. -/
def workspaceMergeBase (wsEpoch currentEpoch : EpochId) : EpochId :=
  if wsEpoch = currentEpoch then currentEpoch
  else (history.mergeBase wsEpoch currentEpoch).getD wsEpoch

/-- The paths that changed between two epochs. -/
def epochDeltaPaths (oldEpoch newEpoch : EpochId) : Except BuildPhaseError (Finset Path) :=
  match history.treeOf oldEpoch, history.treeOf newEpoch with
  | some old, some new => .ok ((old.keys ∪ new.keys).filter fun p => old.lookup p ≠ new.lookup p)
  | _, _ => .error (.diffTree oldEpoch newEpoch)

/-- The creation epochs of the stale workspaces, in the order of their hashes. -/
def staleBaseEpochs (currentEpoch : EpochId) (patchSets : List PatchSet) : List EpochId :=
  (((patchSets.map fun ps => workspaceMergeBase history ps.epoch currentEpoch).filter
    fun e => e ≠ currentEpoch).dedup).insertionSort fun a b => a.oid.bits.toNat ≤ b.oid.bits.toNat

/-- The paths of the patch sets that are in the delta, in order. -/
def overlappingPaths (delta : Finset Path) (patchSets : List PatchSet) : List Path :=
  (((patchSets.flatMap fun ps => ps.changes.map (·.path)).filter fun p => p ∈ delta).dedup).insertionSort
    (· ≤ ·)

/-- The current side of a path in the delta. -/
def epochChange (p : Path) : Option Bytes → FileChange
  | some content => ⟨p, .modified, some content, none, none, none⟩
  | none => ⟨p, .deleted, none, none, none, none⟩

/-- A map of the contents that were found. -/
def collectContents (found : List (Path × Option Bytes)) : FiniteMap Path Bytes :=
  found.foldl (fun contents f =>
    match f.2 with
    | some content => contents.insert f.1 content
    | none => contents) ∅

def epochDeltaId : WorkspaceId := ⟨"epoch-delta"⟩

/-- The patch sets of a build and the overrides of its base. -/
structure EpochDeltaResult where
  patchSets : List PatchSet
  baseOverrides : FiniteMap Path Bytes

def injectEpochDelta (currentEpoch : EpochId) (patchSets : List PatchSet) :
    Except BuildPhaseError EpochDeltaResult :=
  match staleBaseEpochs history currentEpoch patchSets with
  | [] => .ok ⟨patchSets, ∅⟩
  | oldestBase :: rest => do
    let deltas ← (oldestBase :: rest).mapM fun base => epochDeltaPaths history base currentEpoch
    let overlapping := overlappingPaths (deltas.foldr (· ∪ ·) ∅) patchSets
    if overlapping = [] then .ok ⟨patchSets, ∅⟩
    else do
      let sides ← overlapping.mapM fun p => do
        let current ← readOptional history currentEpoch p
        let base ← readOptional history oldestBase p
        pure (epochChange p current, (p, base))
      pure
        { patchSets := patchSets ++ [.new epochDeltaId currentEpoch (sides.map (·.1))]
          baseOverrides := collectContents (sides.map (·.2)) }

def readBaseContents (epoch : EpochId) (partition : PartitionResult) :
    Except BuildPhaseError (FiniteMap Path Bytes) := do
  let found ← (partitionPaths partition).mapM fun p => do
    let content ← readOptional history epoch p
    pure (p, content)
  pure (collectContents found)

/-- What the resolution of a build gets. -/
structure ResolveInput where
  partition : PartitionResult
  baseContents : FiniteMap Path Bytes

def prepareResolve (routines : SliceRoutines) (currentEpoch : EpochId)
    (patchSets : List PatchSet) : Except BuildPhaseError ResolveInput := do
  let epochDelta ← injectEpochDelta history currentEpoch patchSets
  let partition := partitionByPath routines epochDelta.patchSets
  let baseContents ← readBaseContents history currentEpoch partition
  pure ⟨partition, epochDelta.baseOverrides ∪ baseContents⟩

/-- The resolution of a build, with or without the merge of syntax trees. -/
def resolvePartitionForBuild (tools : MergeTools) (astMerge : Bool)
    (attrs : Option AttrsMatcher) (input : ResolveInput) : Except BuildPhaseError ResolveResult :=
  if astMerge then
    (resolvePartitionWithAstAndAttrs tools attrs input.partition input.baseContents).mapError .resolve
  else (resolvePartitionWithAttrs tools attrs input.partition input.baseContents).mapError .resolve

end Definitions

/-! ### The base of a path -/

section Spec

variable {history : History} {currentEpoch : EpochId} {patchSets : List PatchSet} {p : Path}

/-- The content of a path at an epoch. -/
def contentAt (history : History) (epoch : EpochId) (p : Path) : Option Bytes :=
  (readFileAtEpoch history epoch p).toOption

theorem readOptional_eq_ok {epoch : EpochId} {c : Option Bytes}
    (h : readOptional history epoch p = .ok c) : c = contentAt history epoch p := by
  rw [readOptional] at h
  rw [contentAt]
  cases hread : readFileAtEpoch history epoch p with
  | ok content =>
    rw [hread] at h
    exact (Except.ok.inj h).symm
  | error e =>
    rw [hread] at h
    cases e with
    | notFound => exact (Except.ok.inj h).symm
    | gitError => cases h

/-- Contents that are read from one place are looked up there. -/
theorem lookup_collectContents {found : List (Path × Option Bytes)} {f : Path → Option Bytes}
    (hf : ∀ x ∈ found, x.2 = f x.1) :
    (collectContents found).lookup p = if p ∈ found.map Prod.fst then f p else none := by
  have hfold : ∀ (l : List (Path × Option Bytes)) (m : FiniteMap Path Bytes),
      (∀ x ∈ l, x.2 = f x.1) → (l.foldl (fun contents f =>
        match f.2 with
        | some content => contents.insert f.1 content
        | none => contents) m).lookup p =
          if p ∈ l.map Prod.fst then (f p).or (m.lookup p) else m.lookup p := by
    intro l
    induction l with
    | nil => simp
    | cons x l ih =>
      intro m hx
      rw [List.foldl_cons, ih _ fun y hy => hx y (List.mem_cons_of_mem x hy)]
      obtain ⟨q, c⟩ := x
      obtain rfl : c = f q := hx (q, c) List.mem_cons_self
      by_cases hq : p = q
      · subst hq
        cases f p <;> simp
      · have hmem : p ∈ ((q, f q) :: l).map Prod.fst ↔ p ∈ l.map Prod.fst := by
          rw [List.map_cons, List.mem_cons, or_iff_right hq]
        simp only [hmem]
        cases hc : f q with
        | none => rfl
        | some content => rw [FiniteMap.lookup_insert, if_neg hq]
  rw [collectContents, hfold found ∅ hf, Finmap.lookup_empty, Option.or_none]

/-- A workspace that was created at an older epoch. -/
def IsStale (history : History) (currentEpoch : EpochId) (ps : PatchSet) : Prop :=
  workspaceMergeBase history ps.epoch currentEpoch ≠ currentEpoch

/-- A path that changed since the creation of some stale workspace. -/
def InDelta (history : History) (currentEpoch : EpochId) (patchSets : List PatchSet) (p : Path) :
    Prop :=
  ∃ base ∈ staleBaseEpochs history currentEpoch patchSets,
    ∃ paths, epochDeltaPaths history base currentEpoch = .ok paths ∧ p ∈ paths

theorem mem_staleBaseEpochs {e : EpochId} : e ∈ staleBaseEpochs history currentEpoch patchSets ↔
    ∃ ps ∈ patchSets, IsStale history currentEpoch ps ∧
      workspaceMergeBase history ps.epoch currentEpoch = e := by
  rw [staleBaseEpochs, (List.perm_insertionSort _ _).mem_iff, List.mem_dedup, List.mem_filter,
    List.mem_map, decide_eq_true_iff]
  constructor
  · rintro ⟨⟨ps, hps, rfl⟩, hne⟩
    exact ⟨ps, hps, hne, rfl⟩
  · rintro ⟨ps, hps, hstale, rfl⟩
    exact ⟨⟨ps, hps, rfl⟩, hstale⟩

theorem mem_foldr_union {α : Type} [DecidableEq α] {a : α} (l : List (Finset α)) :
    a ∈ l.foldr (· ∪ ·) ∅ ↔ ∃ s ∈ l, a ∈ s := by
  induction l with
  | nil => simp
  | cons s l ih => rw [List.foldr_cons, Finset.mem_union, ih, List.exists_mem_cons_iff]

theorem mem_overlappingPaths {delta : Finset Path} :
    p ∈ overlappingPaths delta patchSets ↔ Touched patchSets p ∧ p ∈ delta := by
  rw [overlappingPaths, (List.perm_insertionSort _ _).mem_iff, List.mem_dedup, List.mem_filter,
    decide_eq_true_iff, touched_iff]
  simp

theorem overlappingPaths_nodup (delta : Finset Path) (patchSets : List PatchSet) :
    (overlappingPaths delta patchSets).Nodup :=
  (List.perm_insertionSort _ _).nodup_iff.mpr (List.nodup_dedup _)

/-- The entry of the epoch delta at a path. -/
def epochEntry (history : History) (currentEpoch : EpochId) (p : Path) : PathEntry :=
  .withMode epochDeltaId (epochChange p (contentAt history currentEpoch p))

@[simp]
theorem epochChange_path (p : Path) (c : Option Bytes) : (epochChange p c).path = p := by
  cases c <;> rfl

/-- A patch set with one change for each of some paths has one entry at each of them. -/
theorem entriesAt_of_map {w : WorkspaceId} {e : EpochId} {paths : List Path} {f : Path → FileChange}
    (hf : ∀ q, (f q).path = q) (hnodup : paths.Nodup) (hp : p ∈ paths) :
    (PatchSet.new w e (paths.map f)).entriesAt p = [.withMode w (f p)] := by
  have hfilter : (paths.map f).filter (fun c => c.path = p) = [f p] := by
    rw [List.filter_map]
    have hone : paths.filter ((fun c : FileChange => decide (c.path = p)) ∘ f) = [p] := by
      have hcount : paths.filter (· == p) = [p] := by
        rw [List.filter_beq, List.count_eq_one_of_mem hnodup hp, List.replicate_one]
      rw [← hcount]
      refine List.filter_congr fun q _ => ?_
      simp [hf, beq_eq_decide]
    rw [hone, List.map_singleton]
  have hperm := ((PatchSet.new_changes_perm w e (paths.map f)).filter fun c => c.path = p)
  rw [hfilter, List.perm_singleton] at hperm
  rw [PatchSet.entriesAt, hperm, List.map_singleton]
  rfl

/-- What the injection does at a path of the delta that a workspace changes. -/
theorem injectEpochDelta_spec {result : EpochDeltaResult} {oldestBase : EpochId}
    (hrun : injectEpochDelta history currentEpoch patchSets = .ok result)
    (holdest : (staleBaseEpochs history currentEpoch patchSets).head? = some oldestBase)
    (hdelta : InDelta history currentEpoch patchSets p) (htouched : Touched patchSets p) :
    entriesAt result.patchSets p = entriesAt patchSets p ++ [epochEntry history currentEpoch p] ∧
      result.baseOverrides.lookup p = contentAt history oldestBase p := by
  rw [injectEpochDelta] at hrun
  cases hstale : staleBaseEpochs history currentEpoch patchSets with
  | nil =>
    rw [hstale] at holdest
    cases holdest
  | cons oldest rest =>
    rw [hstale, List.head?_cons, Option.some.injEq] at holdest
    subst holdest
    rw [hstale] at hrun
    obtain ⟨deltas, hdeltas, hrun⟩ := bind_eq_ok.mp hrun
    have hmem : p ∈ overlappingPaths (deltas.foldr (· ∪ ·) ∅) patchSets := by
      obtain ⟨base, hbase, paths, hpaths, hp⟩ := hdelta
      obtain ⟨s, hs, hok⟩ := exists_mem_of_mapM hdeltas (hstale ▸ hbase)
      obtain rfl := Except.ok.inj (hpaths.symm.trans hok)
      exact mem_overlappingPaths.mpr ⟨htouched, (mem_foldr_union deltas).mpr ⟨paths, hs, hp⟩⟩
    rw [if_neg (List.ne_nil_of_mem hmem)] at hrun
    obtain ⟨sides, hsides, hrun⟩ := bind_eq_ok.mp hrun
    rw [pure_eq_ok] at hrun
    subst hrun
    have hread (q : Path) (b : FileChange × Path × Option Bytes)
        (h : (do
          let current ← readOptional history currentEpoch q
          let base ← readOptional history oldest q
          pure (epochChange q current, (q, base)) : Except BuildPhaseError _) = .ok b) :
        b = (epochChange q (contentAt history currentEpoch q), q, contentAt history oldest q) := by
      obtain ⟨current, hcurrent, h⟩ := bind_eq_ok.mp h
      obtain ⟨base, hbase, h⟩ := bind_eq_ok.mp h
      rw [pure_eq_ok] at h
      rw [← h, readOptional_eq_ok hcurrent, readOptional_eq_ok hbase]
    obtain rfl := eq_map_of_mapM hread hsides
    rw [List.map_map, List.map_map]
    constructor
    · have hpath (q : Path) : (epochChange q (contentAt history currentEpoch q)).path = q :=
        epochChange_path _ _
      have hentry := entriesAt_of_map (w := epochDeltaId) (e := currentEpoch) hpath
        (overlappingPaths_nodup _ _) hmem
      rw [entriesAt, List.flatMap_append, List.flatMap_singleton]
      exact congrArg _ hentry
    · rw [lookup_collectContents (f := contentAt history oldest) (by simp)]
      rw [if_pos (by simpa using hmem)]

/-- The entries and the base of a path of the delta that a workspace changes. -/
theorem prepareResolve_spec {routines : SliceRoutines} {input : ResolveInput}
    {oldestBase : EpochId}
    (hrun : prepareResolve history routines currentEpoch patchSets = .ok input)
    (holdest : (staleBaseEpochs history currentEpoch patchSets).head? = some oldestBase)
    (hdelta : InDelta history currentEpoch patchSets p) (htouched : Touched patchSets p) :
    (∀ entries, (p, entries) ∈ input.partition.shared ↔
        entries = byWorkspace (entriesAt patchSets p ++ [epochEntry history currentEpoch p])) ∧
      input.baseContents.lookup p =
        (contentAt history oldestBase p).or (contentAt history currentEpoch p) := by
  obtain ⟨result, hresult, hrun⟩ := bind_eq_ok.mp hrun
  obtain ⟨baseContents, hbase, hrun⟩ := bind_eq_ok.mp hrun
  rw [pure_eq_ok] at hrun
  subst hrun
  obtain ⟨hentries, hoverride⟩ := injectEpochDelta_spec hresult holdest hdelta htouched
  have hlen : 2 ≤ (entriesAt result.patchSets p).length := by
    have hpos := List.length_pos_iff.mpr htouched
    rw [hentries, List.length_append, List.length_singleton]
    omega
  refine ⟨fun entries => by rw [mem_shared, hentries, and_iff_left (hentries ▸ hlen)], ?_⟩
  obtain ⟨found, hfound, hrun⟩ := bind_eq_ok.mp hbase
  rw [pure_eq_ok] at hrun
  subst hrun
  have hread (q : Path) (b : Path × Option Bytes)
      (h : (do
        let content ← readOptional history currentEpoch q
        pure (q, content) : Except BuildPhaseError _) = .ok b) :
      b = (q, contentAt history currentEpoch q) := by
    obtain ⟨content, hcontent, h⟩ := bind_eq_ok.mp h
    rw [pure_eq_ok] at h
    rw [← h, readOptional_eq_ok hcontent]
  obtain rfl := eq_map_of_mapM hread hfound
  have hmem : p ∈ partitionPaths (partitionByPath routines result.patchSets) :=
    mem_partitionPaths.mpr (List.ne_nil_of_length_pos (by omega))
  rw [FiniteMap.lookup_union, hoverride,
    lookup_collectContents (f := contentAt history currentEpoch) (by simp),
    if_pos (by simpa using hmem)]

end Spec

end Maw
