import Maw.Merge.Accounting
import Maw.Merge.RenameFiles

/-!
# Renames lose no change

After the renames are handled, a change stands at its path, or at the path to which its file is
moved. Missing are the changes of the reported files, and the deletions at the old paths of moved
files.

## Main definitions

* `PartitionResult.IsTaken`, `PartitionResult.LandsAt` — the changes that are taken out, and where
  a change is found afterwards.
* `PartitionResult.IsPartition` — one list for each path, and one change of each workspace in it.

## Main results

* `applyRenameAwareness_keeps` — where the changes are found, and what is reported.
* `isPartition_partitionByPath` — the partitions of patch sets.
-/

open FiniteMap

namespace Maw

namespace PartitionResult

variable (partition : PartitionResult)

/-- Each path has one list of changes, with one change of each workspace. -/
structure IsPartition : Prop where
  nodup : (partitionPaths partition).Nodup
  workspaces : ∀ s ∈ partition.shared, (s.2.map (·.workspaceId)).Nodup

/-- The changes of a file. -/
def fileChanges (fileId : FileId) : List (Path × PathEntry) :=
  partition.changes.filter fun c => c.2.fileId = some fileId

/-- The change is taken out. -/
def IsTaken (c : Path × PathEntry) : Prop :=
  ∃ fileId, c.2.fileId = some fileId ∧ IsTakenOf (partition.fileChanges fileId) c

/-- The change is moved to the path. -/
def IsMoved (p : Path) (c : Path × PathEntry) : Prop :=
  ∃ fileId, c.2.fileId = some fileId ∧ IsMovedTo (partition.fileChanges fileId) p ∧
    c.2.isDeletion = false

/-- The change is found at the path: it stays there or is moved there. -/
def LandsAt (p : Path) (c : Path × PathEntry) : Prop :=
  c.1 = p ∧ ¬ partition.IsTaken c ∨ partition.IsMoved p c

noncomputable instance : DecidablePred partition.IsTaken := Classical.decPred _

noncomputable instance (p : Path) : DecidablePred (partition.IsMoved p) := Classical.decPred _

noncomputable instance (p : Path) : DecidablePred (partition.LandsAt p) := Classical.decPred _

variable {partition} {c : Path × PathEntry} {p q : Path} {fileId : FileId}

theorem mem_fileChanges :
    c ∈ partition.fileChanges fileId ↔ c ∈ partition.changes ∧ c.2.fileId = some fileId := by
  rw [fileChanges, List.mem_filter, decide_eq_true_iff]

theorem isTaken_iff (h : c.2.fileId = some fileId) :
    partition.IsTaken c ↔ IsTakenOf (partition.fileChanges fileId) c := by
  constructor
  · rintro ⟨fileId', h', htaken⟩
    obtain rfl := Option.some.inj (h.symm.trans h')
    exact htaken
  · exact fun htaken => ⟨fileId, h, htaken⟩

theorem isMoved_iff (h : c.2.fileId = some fileId) :
    partition.IsMoved p c ↔
      IsMovedTo (partition.fileChanges fileId) p ∧ c.2.isDeletion = false := by
  constructor
  · rintro ⟨fileId', h', hmoved⟩
    obtain rfl := Option.some.inj (h.symm.trans h')
    exact hmoved
  · exact fun hmoved => ⟨fileId, h, hmoved⟩

/-- What is moved is taken out where it was. -/
theorem IsMoved.isTaken (h : partition.IsMoved p c) : partition.IsTaken c := by
  obtain ⟨fileId, hid, hmoved, hdel⟩ := h
  exact ⟨fileId, hid, .inr ⟨p, hmoved, fun _ => hdel⟩⟩

/-- A change is found at one path. -/
theorem LandsAt.eq (h : partition.LandsAt p c) (h' : partition.LandsAt q c) : p = q := by
  rcases h with ⟨rfl, hstay⟩ | hmoved
  · rcases h' with ⟨rfl, -⟩ | hmoved'
    · rfl
    · exact absurd hmoved'.isTaken hstay
  · rcases h' with ⟨-, hstay'⟩ | hmoved'
    · exact absurd hmoved.isTaken hstay'
    · obtain ⟨fileId, hid, hmoved, -⟩ := hmoved
      exact hmoved.eq ((isMoved_iff hid).mp hmoved').1

/-! ### The files of a partition -/

/-- The changes that are taken out, and the changes with their destinations. -/
def allConsumed (partition : PartitionResult) : List (Path × WorkspaceId) :=
  partition.handlings.flatMap (·.consumed)

def allRerouted (partition : PartitionResult) : List (Path × PathEntry) :=
  partition.handlings.flatMap (·.rerouted)

theorem occurrences_eq : partition.occurrences =
    partition.changes.filterMap fun c => c.2.fileId.map fun fileId => (fileId, occurrence c) := by
  rw [occurrences, changes, flatten, List.filterMap_append, List.filterMap_flatMap]
  congr 1
  refine List.flatMap_congr fun s _ => ?_
  rw [List.filterMap_map]
  rfl

theorem mem_files {occs : List FileIdOccurrence}
    (h : (fileId, occs) ∈ (group partition.occurrences).sortedEntries) :
    occs = (partition.fileChanges fileId).map occurrence := by
  rw [mem_group h, occurrences_eq, List.filter_filterMap, List.map_filterMap, fileChanges,
    ← List.filterMap_eq_filter, List.map_filterMap]
  refine List.filterMap_congr fun c _ => ?_
  rcases hid : c.2.fileId with _ | fid
  · simp [Option.guard, hid]
  · by_cases heq : fid = fileId <;> simp [Option.guard, hid, heq]

theorem mem_keys_files : fileId ∈ (group partition.occurrences).sortedEntries.map Prod.fst ↔
    ∃ c ∈ partition.changes, c.2.fileId = some fileId := by
  rw [mem_keys_group, occurrences_eq]
  simp only [List.mem_filterMap, Option.map_eq_some_iff, Prod.mk.injEq]
  constructor
  · rintro ⟨o, c, hc, _, hid, rfl, -⟩
    exact ⟨c, hc, hid⟩
  · rintro ⟨c, hc, hid⟩
    exact ⟨occurrence c, c, hc, fileId, hid, rfl, rfl⟩

theorem mem_handlings {h : FileHandling} : h ∈ partition.handlings ↔
    ∃ fileId, (∃ c ∈ partition.changes, c.2.fileId = some fileId) ∧
      handleFile fileId ((partition.fileChanges fileId).map occurrence) = h := by
  rw [handlings, List.mem_map]
  constructor
  · rintro ⟨⟨fileId, occs⟩, hmem, rfl⟩
    refine ⟨fileId, mem_keys_files.mp (List.mem_map.mpr ⟨_, hmem, rfl⟩), ?_⟩
    rw [mem_files hmem]
  · rintro ⟨fileId, hid, rfl⟩
    obtain ⟨⟨_, occs⟩, hmem, rfl⟩ := List.mem_map.mp (mem_keys_files.mpr hid)
    exact ⟨_, hmem, by rw [mem_files hmem]⟩

theorem mem_consumed_handlings {k : Path × WorkspaceId} :
    k ∈ partition.allConsumed ↔
      ∃ c ∈ partition.changes, (c.1, c.2.workspaceId) = k ∧ partition.IsTaken c := by
  simp only [allConsumed, List.mem_flatMap, mem_handlings]
  constructor
  · rintro ⟨h, ⟨fileId, -, rfl⟩, hk⟩
    obtain ⟨c, hc, hkey, htaken⟩ := mem_consumed.mp hk
    obtain ⟨hc, hid⟩ := mem_fileChanges.mp hc
    exact ⟨c, hc, hkey, fileId, hid, htaken⟩
  · rintro ⟨c, hc, hkey, fileId, hid, htaken⟩
    exact ⟨_, ⟨fileId, ⟨c, hc, hid⟩, rfl⟩,
      mem_consumed.mpr ⟨c, mem_fileChanges.mpr ⟨hc, hid⟩, hkey, htaken⟩⟩

theorem rerouted_handlings (partition : PartitionResult) (p : Path) :
    (partition.allRerouted.filter fun r => r.1 = p).Perm
      ((partition.changes.filter fun c => partition.IsMoved p c).map fun c => (p, c.2)) := by
  let moved (o : FileIdOccurrence) : Prop := partition.IsMoved p (o.path, o.entry)
  have hdec : DecidablePred moved := Classical.decPred _
  let files := (group partition.occurrences).sortedEntries
  have hfile : ∀ f ∈ files, ((handleFile f.1 f.2).rerouted.filter fun r => r.1 = p).Perm
      ((f.2.filter fun o => moved o).map fun o => (p, o.entry)) := by
    rintro ⟨fileId, occs⟩ hmem
    dsimp only
    rw [mem_files hmem]
    refine (rerouted_perm p (partition.IsMoved p) ?_).trans (.of_eq ?_)
    · exact fun c hc => isMoved_iff (mem_fileChanges.mp hc).2
    · rw [List.filter_map, List.map_map]
      congr 1
      exact List.filter_congr fun c _ => decide_eq_decide.mpr Iff.rfl
  have hflat : files.flatMap (fun f => (f.2.filter fun o => moved o).map fun o => (p, o.entry)) =
      ((flatten files).filter fun f => moved f.2).map fun f => (p, f.2.entry) := by
    rw [flatten, List.filter_flatMap, List.map_flatMap]
    refine List.flatMap_congr fun f _ => ?_
    rw [List.filter_map, List.map_map]
    rfl
  have hall : (partition.occurrences.filter fun f => moved f.2).map (fun f => (p, f.2.entry)) =
      (partition.changes.filter fun c => partition.IsMoved p c).map fun c => (p, c.2) := by
    rw [occurrences_eq, List.filter_filterMap, List.map_filterMap, ← List.filterMap_eq_filter,
      List.map_filterMap]
    refine List.filterMap_congr fun c _ => ?_
    rcases hid : c.2.fileId with _ | fileId
    · have hnot : ¬ partition.IsMoved p c := by
        rintro ⟨_, h, -⟩
        rw [hid] at h
        cases h
      simp [Option.guard, hnot]
    · have hiff : moved (occurrence c) ↔ partition.IsMoved p c := Iff.rfl
      by_cases hm : partition.IsMoved p c
      · simp only [Option.map_some, Option.filter, Option.guard, hiff, hm, decide_true, if_true]
        rfl
      · simp [Option.guard, Option.filter, hiff, hm]
  rw [allRerouted, handlings, List.flatMap_map, List.filter_flatMap, ← hall]
  refine (List.Perm.flatMap_left _ hfile).trans ?_
  rw [hflat]
  exact ((flatten_group_perm _).filter _).map _

/-! ### The rebuilt partition -/

section Rebuild

/-- Lists with one change and lists with more changes together are all lists. -/
theorem asUnique_flatten_perm (l : List (Path × List PathEntry)) :
    (l.filterMap asUnique ++ flatten (l.filter fun s => s.2.length ≠ 1)).Perm (flatten l) := by
  induction l with
  | nil => exact .nil
  | cons s l ih =>
    obtain ⟨p, es⟩ := s
    match es with
    | [e] => exact ih.cons _
    | [] => exact ih
    | e :: e' :: es =>
      have hfilter : ((p, e :: e' :: es) :: l).filter (fun s => s.2.length ≠ 1) =
          (p, e :: e' :: es) :: l.filter fun s => s.2.length ≠ 1 := by simp
      rw [hfilter, List.filterMap_cons_none rfl, flatten, flatten, List.flatMap_cons,
        List.flatMap_cons]
      exact List.perm_append_comm_assoc _ _ _ |>.trans (ih.append_left _)

variable (consumed : List (Path × WorkspaceId)) (partition : PartitionResult)

/-- The lists of shared paths without what is taken out. -/
def remaining : List (Path × List PathEntry) :=
  partition.shared.map fun s => (s.1, remainingAt consumed s.1 s.2)

theorem keptUnique_eq : keptUnique consumed partition =
    (partition.unique.filter fun u => !consumed.contains (u.1, u.2.workspaceId)) ++
      (remaining consumed partition).filterMap asUnique := by
  rw [keptUnique, remaining, List.filterMap_map]
  congr 1
  refine List.filterMap_congr fun s _ => ?_
  rw [Function.comp]
  match remainingAt consumed s.1 s.2 with
  | [] | [_] | _ :: _ :: _ => rfl

theorem keptShared_eq : keptShared consumed partition =
    ((remaining consumed partition).filter fun s => 2 ≤ s.2.length).foldl
      (fun m s => m.insert s.1 s.2) ∅ := by
  have hrun (step : FiniteMap Path (List PathEntry) → Path × List PathEntry →
      FiniteMap Path (List PathEntry))
      (hstep : ∀ m s, step m s = if 2 ≤ (remainingAt consumed s.1 s.2).length then
        m.insert s.1 (remainingAt consumed s.1 s.2) else m)
      (l : List (Path × List PathEntry)) (m : FiniteMap Path (List PathEntry)) :
      l.foldl step m = ((l.map fun s => (s.1, remainingAt consumed s.1 s.2)).filter
        fun s => 2 ≤ s.2.length).foldl (fun m s => m.insert s.1 s.2) m := by
    induction l generalizing m with
    | nil => rfl
    | cons s l ih =>
      rw [List.foldl_cons, ih, List.map_cons, List.filter_cons, hstep]
      by_cases htwo : 2 ≤ (remainingAt consumed s.1 s.2).length
      · simp [htwo]
      · simp [htwo]
  refine hrun _ (fun m s => ?_) _ _
  rcases remainingAt consumed s.1 s.2 with _ | ⟨_, _ | ⟨_, _⟩⟩ <;> simp

theorem flatten_remaining : flatten (remaining consumed partition) =
    (flatten partition.shared).filter fun c => !consumed.contains (c.1, c.2.workspaceId) := by
  rw [remaining, flatten, flatten, List.flatMap_map, List.filter_flatMap]
  refine List.flatMap_congr fun s _ => ?_
  rw [remainingAt, List.filter_map]
  rfl

theorem flatten_filter_two (l : List (Path × List PathEntry)) :
    flatten (l.filter fun s => s.2.length ≠ 1) = flatten (l.filter fun s => 2 ≤ s.2.length) := by
  induction l with
  | nil => rfl
  | cons s l ih =>
    obtain ⟨p, es⟩ := s
    rw [flatten, flatten] at ih ⊢
    rcases es with _ | ⟨_, _ | ⟨_, _⟩⟩
    · simpa using ih
    · simpa using ih
    · simpa using ih

/-- What stays in place. -/
theorem kept_perm : (keptUnique consumed partition ++
      flatten ((remaining consumed partition).filter fun s => 2 ≤ s.2.length)).Perm
    (partition.changes.filter fun c => !consumed.contains (c.1, c.2.workspaceId)) := by
  rw [keptUnique_eq, changes, List.filter_append, ← flatten_remaining, List.append_assoc,
    ← flatten_filter_two]
  exact (asUnique_flatten_perm _).append_left _

theorem nodup_remaining (h : (partitionPaths partition).Nodup) :
    ((remaining consumed partition).map Prod.fst).Nodup := by
  rw [remaining, List.map_map]
  exact (List.nodup_append.mp h).2.1

variable {partition} in
/-- The changes of a path in the rebuilt lists. -/
theorem finalShared_perm (h : (partitionPaths partition).Nodup) (rerouted : List (Path × PathEntry))
    (p : Path) :
    ((flatten (finalShared consumed partition rerouted)).filter fun c => c.1 = p).Perm
      (((flatten ((remaining consumed partition).filter fun s => 2 ≤ s.2.length)).filter
        fun c => c.1 = p) ++ rerouted.filter fun c => c.1 = p) := by
  have hbig : (((remaining consumed partition).filter fun s => 2 ≤ s.2.length).map
      Prod.fst).Nodup :=
    (List.filter_sublist.map _).nodup (nodup_remaining consumed partition h)
  have hkept : ((keptShared consumed partition).lookup p).getD [] =
      valuesAt ((remaining consumed partition).filter fun s => 2 ≤ s.2.length) p := by
    rw [keptShared_eq, getD_lookup_foldl_insert hbig fun b _ => Finmap.lookup_empty b,
      Finmap.lookup_empty]
    rfl
  have hsort (l : List (Path × List PathEntry)) :
      (valuesAt (l.map fun s => (s.1, byWorkspace s.2)) p).Perm (valuesAt l p) := by
    rw [valuesAt, valuesAt, List.filter_map, List.flatMap_map]
    exact List.Perm.flatMap_left _ fun s _ => List.perm_insertionSort _ _
  rw [filter_flatten, filter_flatten, finalShared]
  refine ((hsort _).map _).trans (.of_eq ?_)
  rw [valuesAt_sortedEntries, getD_lookup_foldl_extend, hkept, valuesAt_sortedEntries,
    getD_lookup_group, List.map_append, List.map_map]
  congr 1
  rw [List.map_congr_left (g := id), List.map_id]
  intro c hc
  rw [List.mem_filter, decide_eq_true_iff] at hc
  rw [Function.comp, id, ← hc.2]

theorem asUnique_keys_perm (l : List (Path × List PathEntry)) :
    ((l.filterMap asUnique).map Prod.fst ++ (l.filter fun s => s.2.length ≠ 1).map Prod.fst).Perm
      (l.map Prod.fst) := by
  induction l with
  | nil => exact .nil
  | cons s l ih =>
    obtain ⟨p, es⟩ := s
    match es with
    | [e] => exact ih.cons p
    | [] => exact List.perm_middle.trans (ih.cons p)
    | e :: e' :: es =>
      have hfilter : ((p, e :: e' :: es) :: l).filter (fun s => s.2.length ≠ 1) =
          (p, e :: e' :: es) :: l.filter fun s => s.2.length ≠ 1 := by simp
      rw [hfilter]
      exact List.perm_middle.trans (ih.cons p)

variable {partition} in
/-- No path is among the paths with one change and among the paths with more. -/
theorem nodup_kept (h : (partitionPaths partition).Nodup) :
    ((keptUnique consumed partition).map Prod.fst ++
      ((remaining consumed partition).filter fun s => 2 ≤ s.2.length).map Prod.fst).Nodup := by
  have hkeys : (remaining consumed partition).map Prod.fst = partition.shared.map Prod.fst := by
    rw [remaining, List.map_map]
    rfl
  have hbig : ((remaining consumed partition).filter fun s => 2 ≤ s.2.length).Sublist
      ((remaining consumed partition).filter fun s => s.2.length ≠ 1) := by
    refine List.monotone_filter_right _ fun s hs => ?_
    rw [decide_eq_true_iff] at hs ⊢
    omega
  have hparts := (asUnique_keys_perm (remaining consumed partition)).append_left
    ((partition.unique.filter fun u => !consumed.contains (u.1, u.2.workspaceId)).map Prod.fst)
  rw [keptUnique_eq, List.map_append, List.append_assoc]
  refine (((hbig.map _).append_left _).append_left _).nodup (hparts.nodup_iff.mpr ?_)
  rw [hkeys]
  exact ((List.filter_sublist.map _).append_right _).nodup h

variable {partition} in
theorem mem_finalShared {rerouted : List (Path × PathEntry)} {p : Path} :
    p ∈ (finalShared consumed partition rerouted).map Prod.fst ↔
      p ∈ ((remaining consumed partition).filter fun s => 2 ≤ s.2.length).map Prod.fst ∨
        ∃ e, (p, e) ∈ rerouted := by
  rw [finalShared, List.map_map]
  change p ∈ (FiniteMap.sortedEntries _).map Prod.fst ↔ _
  rw [mem_keys_sortedEntries, mem_foldl_extend, mem_keys_group, keptShared_eq,
    mem_foldl fun _ _ _ => Finmap.mem_insert, or_iff_right Finmap.notMem_empty]

theorem nodup_finalShared (rerouted : List (Path × PathEntry)) :
    ((finalShared consumed partition rerouted).map Prod.fst).Nodup := by
  rw [finalShared, List.map_map]
  exact nodup_sortedEntries _

end Rebuild

/-! ### Where the changes are found -/

section Keeps

variable {partition : PartitionResult} {p : Path} {c c' : Path × PathEntry}

/-- A path and a workspace name one change. -/
theorem IsPartition.eq (h : partition.IsPartition) (hc : c ∈ partition.changes)
    (hc' : c' ∈ partition.changes)
    (hkey : (c.1, c.2.workspaceId) = (c'.1, c'.2.workspaceId)) : c = c' := by
  obtain ⟨hp, hw⟩ := Prod.mk.inj hkey
  obtain ⟨hunique, hshared, hdisjoint⟩ := List.nodup_append.mp h.nodup
  rw [changes, List.mem_append] at hc hc'
  simp only [flatten, List.mem_flatMap, List.mem_map] at hc hc'
  rcases hc with hc | ⟨s, hs, e, he, rfl⟩
  · rcases hc' with hc' | ⟨s', hs', e', he', rfl⟩
    · exact List.inj_on_of_nodup_map hunique hc hc' hp
    · exact absurd hp (hdisjoint _ (List.mem_map_of_mem hc) _ (List.mem_map_of_mem hs'))
  · rcases hc' with hc' | ⟨s', hs', e', he', rfl⟩
    · exact absurd hp.symm (hdisjoint _ (List.mem_map_of_mem hc') _ (List.mem_map_of_mem hs))
    · obtain rfl := List.inj_on_of_nodup_map hshared hs hs' hp
      obtain rfl := List.inj_on_of_nodup_map (h.workspaces s hs) he he' hw
      rfl

theorem IsPartition.mem_consumed_iff (h : partition.IsPartition) (hc : c ∈ partition.changes) :
    (c.1, c.2.workspaceId) ∈ partition.allConsumed ↔ partition.IsTaken c := by
  rw [mem_consumed_handlings]
  constructor
  · rintro ⟨c', hc', hkey, htaken⟩
    exact h.eq hc' hc hkey ▸ htaken
  · exact fun htaken => ⟨c, hc, rfl, htaken⟩

/-- The changes that stay at a path. -/
noncomputable def stayingAt (partition : PartitionResult) (p : Path) : List (Path × PathEntry) :=
  (partition.changes.filter fun c => ¬ partition.IsTaken c).filter fun c => c.1 = p

theorem IsPartition.filter_consumed (h : partition.IsPartition) :
    (partition.changes.filter fun c =>
        !partition.allConsumed.contains (c.1, c.2.workspaceId)) =
      partition.changes.filter fun c => ¬ partition.IsTaken c := by
  refine List.filter_congr fun c hc => ?_
  rw [Bool.eq_iff_iff, Bool.not_eq_true', decide_eq_true_iff, List.contains_eq_mem,
    decide_eq_false_iff_not, h.mem_consumed_iff hc]

/-- A change stays or is moved to the path, but not both. -/
theorem landsAt_perm (partition : PartitionResult) (p : Path) :
    (partition.stayingAt p ++
        (partition.changes.filter fun c => partition.IsMoved p c).map fun c => (p, c.2)).Perm
      ((partition.changes.filter fun c => partition.LandsAt p c).map fun c => (p, c.2)) := by
  have hsplit := (List.filter_append_perm (fun c => ¬ partition.IsTaken c)
    (partition.changes.filter fun c => partition.LandsAt p c)).map fun c => (p, c.2)
  rw [List.map_append, List.filter_filter, List.filter_filter] at hsplit
  refine (List.Perm.of_eq ?_).trans hsplit
  congr 1
  · rw [stayingAt, List.filter_filter, List.map_congr_left (g := id), List.map_id]
    · refine List.filter_congr fun c _ => ?_
      rw [Bool.eq_iff_iff]
      simp only [Bool.and_eq_true, decide_eq_true_iff]
      constructor
      · exact fun ⟨hp, hstay⟩ => ⟨hstay, .inl ⟨hp, hstay⟩⟩
      · rintro ⟨hstay, ⟨hp, -⟩ | hmoved⟩
        · exact ⟨hp, hstay⟩
        · exact absurd hmoved.isTaken hstay
    · intro c hc
      simp only [List.mem_filter, Bool.and_eq_true, decide_eq_true_iff] at hc
      obtain ⟨-, hstay, ⟨hp, -⟩ | hmoved⟩ := hc
      · rw [← hp, id]
      · exact absurd hmoved.isTaken hstay
  · congr 1
    refine List.filter_congr fun c _ => ?_
    rw [Bool.eq_iff_iff]
    simp only [Bool.and_eq_true, Bool.not_eq_true', decide_eq_false_iff_not, decide_eq_true_iff,
      not_not]
    constructor
    · exact fun hmoved => ⟨hmoved.isTaken, .inr hmoved⟩
    · rintro ⟨htaken, ⟨-, hstay⟩ | hmoved⟩
      · exact absurd htaken hstay
      · exact hmoved

end Keeps

/-! ### The result -/

section Result

variable {partition : PartitionResult} {p : Path}

def final (partition : PartitionResult) : List (Path × List PathEntry) :=
  finalShared partition.allConsumed partition partition.allRerouted

theorem unique_applyRenameAwareness (partition : PartitionResult) :
    (applyRenameAwareness partition).partition.unique =
      (keptUnique partition.allConsumed partition ++
        partition.final.filterMap asUnique).insertionSort fun a b => a.1 ≤ b.1 := by
  simp only [applyRenameAwareness, final, allConsumed, allRerouted]

theorem shared_applyRenameAwareness (partition : PartitionResult) :
    (applyRenameAwareness partition).partition.shared =
      partition.final.filter fun s => s.2.length ≠ 1 := by
  simp only [applyRenameAwareness, final, allConsumed, allRerouted]

/-- The result has what stays and what is moved, in other lists. -/
theorem changes_applyRenameAwareness (partition : PartitionResult) :
    (applyRenameAwareness partition).partition.changes.Perm
      (keptUnique partition.allConsumed partition ++ flatten partition.final) := by
  rw [changes, unique_applyRenameAwareness, shared_applyRenameAwareness]
  refine ((List.perm_insertionSort _ _).append_right _).trans ?_
  rw [List.append_assoc]
  exact (asUnique_flatten_perm _).append_left _

/-- The changes of the result at a path are those that land there. -/
theorem IsPartition.filter_result (h : partition.IsPartition) (p : Path) :
    ((applyRenameAwareness partition).partition.changes.filter fun c => c.1 = p).Perm
      ((partition.changes.filter fun c => partition.LandsAt p c).map fun c => (p, c.2)) := by
  refine ((changes_applyRenameAwareness partition).filter _).trans ?_
  rw [List.filter_append]
  refine ((finalShared_perm _ h.nodup _ p).append_left _).trans ?_
  rw [← List.append_assoc, ← List.filter_append]
  refine (((kept_perm _ _).filter _).append (rerouted_handlings partition p)).trans ?_
  rw [h.filter_consumed]
  exact landsAt_perm partition p

/-- A file is moved to the path, and one change stays there. -/
def OneStaysAt (partition : PartitionResult) (p : Path) : Prop :=
  (∃ fileId, IsMovedTo (partition.fileChanges fileId) p) ∧ (partition.stayingAt p).length = 1

theorem IsPartition.length_stayingAt (h : partition.IsPartition)
    (hp : p ∈ (keptUnique partition.allConsumed partition).map Prod.fst) :
    (partition.stayingAt p).length = 1 := by
  obtain ⟨⟨q, e⟩, he, heq⟩ := List.mem_map.mp hp
  dsimp only at heq
  subst heq
  have hnodup := nodup_kept partition.allConsumed h.nodup
  obtain ⟨hunique, -, hdisjoint⟩ := List.nodup_append.mp hnodup
  have hperm := (kept_perm partition.allConsumed partition).filter
    fun c => c.1 = q
  rw [h.filter_consumed, ← stayingAt, List.filter_append, filter_key_of_nodup hunique he,
    filter_flatten, valuesAt, List.filter_eq_nil_iff.mpr] at hperm
  · exact hperm.length_eq.symm
  · rintro s hs heq
    exact hdisjoint _ hp _ (List.mem_map_of_mem hs) (of_decide_eq_true heq).symm

/-- Where no single change stays at a destination, each path has one list. -/
theorem IsPartition.nodup_result (h : partition.IsPartition)
    (hone : ∀ p, ¬ partition.OneStaysAt p) :
    (partitionPaths (applyRenameAwareness partition).partition).Nodup := by
  have hkeys : (partitionPaths (applyRenameAwareness partition).partition).Perm
      ((keptUnique partition.allConsumed partition).map Prod.fst ++
        partition.final.map Prod.fst) := by
    rw [partitionPaths, unique_applyRenameAwareness, shared_applyRenameAwareness]
    refine (((List.perm_insertionSort _ _).map _).append_right _).trans ?_
    rw [List.map_append, List.append_assoc]
    exact (asUnique_keys_perm _).append_left _
  have hnodup := nodup_kept partition.allConsumed h.nodup
  obtain ⟨hunique, -, hdisjoint⟩ := List.nodup_append.mp hnodup
  rw [hkeys.nodup_iff]
  refine List.nodup_append.mpr ⟨hunique, nodup_finalShared _ _ _, ?_⟩
  rintro p hp q hq rfl
  rcases (mem_finalShared _).mp hq with hbig | ⟨e, he⟩
  · exact hdisjoint p hp p hbig rfl
  · have hmem := (rerouted_handlings partition p).mem_iff.mp
      (List.mem_filter.mpr ⟨he, decide_eq_true rfl⟩)
    obtain ⟨c, hc, -⟩ := List.mem_map.mp hmem
    obtain ⟨fileId, -, hmoved, -⟩ := of_decide_eq_true (List.mem_filter.mp hc).2
    exact hone p ⟨⟨fileId, hmoved⟩, h.length_stayingAt hp⟩

/-- The reported files are those in conflict, each once. -/
theorem renameConflicts_spec (partition : PartitionResult) :
    ((applyRenameAwareness partition).renameConflicts.map RenameConflict.fileId).Nodup ∧
      ∀ fileId, fileId ∈ (applyRenameAwareness partition).renameConflicts.map
        RenameConflict.fileId ↔ IsReported (partition.fileChanges fileId) := by
  have hperm : ((applyRenameAwareness partition).renameConflicts.map RenameConflict.fileId).Perm
      ((partition.handlings.filterMap (·.conflict)).map RenameConflict.fileId) :=
    (List.perm_insertionSort _ _).map _
  have hfile (fileId : FileId) (file : List (Path × PathEntry)) (c : RenameConflict)
      (h : (handleFile fileId (file.map occurrence)).conflict = some c) : IsReported file := by
    rcases handleFile_cases fileId file with ⟨hr, -⟩ | ⟨d, -, hm⟩ | ⟨-, -, hn⟩
    · exact hr
    · rw [hm.conflict] at h
      cases h
    · rw [hn] at h
      cases h
  constructor
  · rw [hperm.nodup_iff, handlings, List.filterMap_map]
    have hkeys := nodup_sortedEntries (group partition.occurrences)
    exact PointwiseFold.nodup_map_filterMap (fun _ _ => fileId_of_conflict) hkeys
  · intro fileId
    rw [hperm.mem_iff, List.mem_map]
    simp only [List.mem_filterMap, mem_handlings]
    constructor
    · rintro ⟨c, ⟨_, ⟨fid, -, rfl⟩, h⟩, rfl⟩
      exact fileId_of_conflict h ▸ hfile _ _ _ h
    · intro hr
      obtain ⟨⟨c, hc, hid⟩, -⟩ := handleFile_reports fileId hr
      have hne : ∃ c ∈ partition.changes, c.2.fileId = some fileId := by
        rcases hr with ⟨d, -, -, ⟨c, hc, -⟩, -⟩ | ⟨d, ⟨c, hc, -⟩, -⟩
        · exact ⟨c, mem_fileChanges.mp hc⟩
        · exact ⟨c, mem_fileChanges.mp hc⟩
      exact ⟨c, ⟨_, ⟨fileId, hne, rfl⟩, hc⟩, hid⟩

/-- Every change that is not taken out stays where it is, and every change of a moved file that is
no deletion is found at its destination, each once; reported are the files in conflict. -/
theorem applyRenameAwareness_keeps (h : partition.IsPartition) :
    (∀ p, ((applyRenameAwareness partition).partition.changes.filter fun c => c.1 = p).Perm
      ((partition.changes.filter fun c => partition.LandsAt p c).map fun c => (p, c.2))) ∧
    (∀ c p q, partition.LandsAt p c → partition.LandsAt q c → p = q) ∧
    ((∀ p, ¬ partition.OneStaysAt p) →
      (partitionPaths (applyRenameAwareness partition).partition).Nodup) ∧
    ((applyRenameAwareness partition).renameConflicts.map RenameConflict.fileId).Nodup ∧
    ∀ fileId, fileId ∈ (applyRenameAwareness partition).renameConflicts.map
      RenameConflict.fileId ↔ IsReported (partition.fileChanges fileId) :=
  ⟨h.filter_result, fun _ _ _ => LandsAt.eq, h.nodup_result, renameConflicts_spec partition⟩

end Result

/-! ### Partitions of patch sets -/

section PatchSets

variable {patchSets : List PatchSet}

theorem workspaces_entriesAt (hpaths : ∀ ps ∈ patchSets, (ps.changes.map (·.path)).Nodup)
    (p : Path) : ((entriesAt patchSets p).map (·.workspaceId)).Sublist
      (patchSets.map (·.workspaceId)) := by
  induction patchSets with
  | nil => exact List.Sublist.refl _
  | cons ps patchSets ih =>
    have hone : ((ps.entriesAt p).map (·.workspaceId)).Sublist [ps.workspaceId] := by
      rw [PatchSet.entriesAt, List.map_map]
      have hfilter : ((ps.changes.filter fun c => c.path = p).map (·.path)).Nodup :=
        (List.filter_sublist.map _).nodup (hpaths ps List.mem_cons_self)
      have hall : ∀ c ∈ ps.changes.filter fun c => c.path = p, c.path = p :=
        fun c hc => of_decide_eq_true (List.mem_filter.mp hc).2
      generalize ps.changes.filter (fun c => c.path = p) = l at hfilter hall ⊢
      rcases l with _ | ⟨c, _ | ⟨c', l⟩⟩
      · exact List.nil_sublist _
      · exact List.Sublist.refl _
      · rw [List.map_cons, List.map_cons, hall c (by simp), hall c' (by simp)] at hfilter
        exact absurd List.mem_cons_self (List.nodup_cons.mp hfilter).1
    rw [entriesAt, List.flatMap_cons, List.map_append, List.map_cons]
    exact hone.append (ih fun ps' h => hpaths ps' (List.mem_cons_of_mem _ h))

/-- The partition of patch sets of different workspaces, each with one change of a path. -/
theorem isPartition_partitionByPath (routines : SliceRoutines)
    (hworkspaces : (patchSets.map (·.workspaceId)).Nodup)
    (hpaths : ∀ ps ∈ patchSets, (ps.changes.map (·.path)).Nodup) :
    (partitionByPath routines patchSets).IsPartition := by
  refine ⟨partitionPaths_nodup routines patchSets, ?_⟩
  rintro ⟨p, es⟩ hs
  obtain ⟨rfl, -⟩ := (mem_shared routines).mp hs
  refine ((List.perm_insertionSort _ _).map _).nodup_iff.mpr ?_
  exact (workspaces_entriesAt hpaths p).nodup hworkspaces

end PatchSets

end PartitionResult

/-! ### A renamed file -/

section Samples

private def oldRust : Path := ⟨[.lit "old.rs"], by decide⟩

private def newRust : Path := ⟨[.lit "new.rs"], by decide⟩

private def renameEntry (w : String) (kind : ChangeKind) (content : Option Bytes) : PathEntry :=
  ⟨⟨w⟩, kind, content, some ⟨1⟩, none, none⟩

/-- A workspace renames a file, and another one changes it. -/
private def renamedAndChanged : PartitionResult :=
  { unique := [(newRust, renameEntry "ws-a" .added (some [1]))]
    shared := [(oldRust, [renameEntry "ws-a" .deleted none,
      renameEntry "ws-b" .modified (some [2])])]
    dfClashes := [] }

theorem applyRenameAwareness_keeps_changed :
    renamedAndChanged.IsPartition ∧
      ((applyRenameAwareness renamedAndChanged).partition.changes.filter
          fun c => c.1 = newRust).Perm
        ((renamedAndChanged.changes.filter fun c => renamedAndChanged.LandsAt newRust c).map
          fun c => (newRust, c.2)) := by
  have h : renamedAndChanged.IsPartition := ⟨by decide, by decide⟩
  exact ⟨h, (PartitionResult.applyRenameAwareness_keeps h).1 newRust⟩

private def renamedAlone : PartitionResult :=
  { unique := [(newRust, renameEntry "ws-a" .added (some [1])),
      (oldRust, renameEntry "ws-a" .deleted none)]
    shared := []
    dfClashes := [] }

/-- The deletion at the old path of a renamed file is lost. -/
theorem applyRenameAwareness_drops_deletion :
    renamedAlone.IsPartition ∧ (oldRust, renameEntry "ws-a" .deleted none) ∈
        renamedAlone.changes ∧
      ((applyRenameAwareness renamedAlone).renameConflicts,
          (applyRenameAwareness renamedAlone).partition.changes) =
        ([], [(newRust, renameEntry "ws-a" .added (some [1]))]) :=
  ⟨⟨by decide, by decide⟩, by decide, by decide +kernel⟩

end Samples

end Maw
