import Maw.Merge.RenameAware

/-!
# The changes of a renamed file

A file that is added at two paths, or is added at one path and deleted at another one by a workspace
that does nothing else with it, is reported. A file that is added at one path and changed or deleted
at others by the workspaces that keep it is moved to this path.

## Main definitions

* `IsReported`, `IsMovedTo` — the files that are reported and the files that are moved.
* `IsTakenOf` — the changes that are taken out of the partition.

## Main results

* `handleFile_cases` — what is done with a file.
* `mem_consumed`, `rerouted_perm` — what is taken out and what is moved.
-/

open FiniteMap

namespace Maw

/-- The changes of a partition with their paths. -/
def PartitionResult.changes (partition : PartitionResult) : List (Path × PathEntry) :=
  partition.unique ++ flatten partition.shared

/-! ### Files -/

section Files

/-- The file is added at the path. -/
def IsAddedAt (file : List (Path × PathEntry)) (d : Path) : Prop :=
  ∃ c ∈ file, c.1 = d ∧ c.2.kind = .added

/-- The file is added at two paths. -/
def IsDivergent (file : List (Path × PathEntry)) : Prop :=
  ∃ d d', d ≠ d' ∧ IsAddedAt file d ∧ IsAddedAt file d'

/-- A workspace deletes the file at another path and does nothing else with it. -/
def IsDeletedBeside (file : List (Path × PathEntry)) (d : Path) : Prop :=
  ∃ c ∈ file, c.2.isDeletion ∧ c.1 ≠ d ∧
    ∀ c' ∈ file, c'.2.workspaceId = c.2.workspaceId → c'.2.isDeletion

/-- The file is a conflict of renames. -/
def IsReported (file : List (Path × PathEntry)) : Prop :=
  IsDivergent file ∨ ∃ d, IsAddedAt file d ∧ IsDeletedBeside file d

/-- The changes of the file at other paths are moved to the path. -/
def IsMovedTo (file : List (Path × PathEntry)) (d : Path) : Prop :=
  IsAddedAt file d ∧ ¬ IsReported file ∧ ∃ c ∈ file, c.1 ≠ d

/-- The change is taken out: its file is reported or moved. A deletion at the destination stays. -/
def IsTakenOf (file : List (Path × PathEntry)) (c : Path × PathEntry) : Prop :=
  IsReported file ∨ ∃ d, IsMovedTo file d ∧ (c.1 = d → c.2.isDeletion = false)

variable {file : List (Path × PathEntry)} {d d' : Path}

theorem IsAddedAt.eq (h : IsAddedAt file d) (h' : IsAddedAt file d') (hone : ¬ IsDivergent file) :
    d = d' := by
  by_contra hne
  exact hone ⟨d, d', hne, h, h'⟩

theorem IsMovedTo.eq (h : IsMovedTo file d) (h' : IsMovedTo file d') : d = d' :=
  h.1.eq h'.1 fun hdiv => h.2.1 (.inl hdiv)

end Files

/-! ### What is done with one file -/

section Handling

/-- The change as it is found. -/
def occurrence (c : Path × PathEntry) : FileIdOccurrence := ⟨c.2.workspaceId, c.1, c.2⟩

variable {file : List (Path × PathEntry)} {fileId : FileId} {d p : Path}
  {occs : List FileIdOccurrence}

theorem isDeletion_of_added {e : PathEntry} (h : e.kind = .added) : e.isDeletion = false := by
  simp [PathEntry.isDeletion, h]

theorem mem_pathsSeen (h : (p, occs) ∈ pathsSeen (file.map occurrence)) :
    occs = (file.filter fun c => c.1 = p).map occurrence := by
  rw [mem_group h, List.map_map, List.filter_map, List.map_map]
  rfl

theorem mem_keys_pathsSeen :
    p ∈ (pathsSeen (file.map occurrence)).map Prod.fst ↔ ∃ c ∈ file, c.1 = p := by
  rw [pathsSeen, mem_keys_group, List.map_map]
  constructor
  · rintro ⟨o, ho⟩
    obtain ⟨c, hc, heq⟩ := List.mem_map.mp ho
    exact ⟨c, hc, (Prod.mk.inj heq).1⟩
  · rintro ⟨c, hc, rfl⟩
    exact ⟨occurrence c, List.mem_map.mpr ⟨c, hc, rfl⟩⟩

theorem nodup_pathsSeen (occs : List FileIdOccurrence) : ((pathsSeen occs).map Prod.fst).Nodup :=
  nodup_sortedEntries _

/-- The lists of the paths together have the changes. -/
theorem flatten_pathsSeen_perm (file : List (Path × PathEntry)) :
    (flatten (pathsSeen (file.map occurrence))).Perm (file.map fun c => (c.1, occurrence c)) := by
  refine (flatten_group_perm ((file.map occurrence).map fun o => (o.path, o))).trans (.of_eq ?_)
  rw [List.map_map]
  rfl

theorem hasAdd_iff : hasAdd ((file.filter fun c => c.1 = p).map occurrence) = true ↔
    IsAddedAt file p := by
  rw [hasAdd, List.any_map, List.any_eq_true]
  constructor
  · rintro ⟨c, hc, hkind⟩
    rw [List.mem_filter, decide_eq_true_iff] at hc
    exact ⟨c, hc.1, hc.2, of_decide_eq_true hkind⟩
  · rintro ⟨c, hc, hp, hkind⟩
    exact ⟨c, List.mem_filter.mpr ⟨hc, by simpa using hp⟩, decide_eq_true hkind⟩

theorem nonDeletes_map (file : List (Path × PathEntry)) :
    nonDeletes (file.map occurrence) = (file.filter fun c => !c.2.isDeletion).map occurrence := by
  rw [nonDeletes, List.filter_map]
  rfl

/-- The changes at a path that leave the file. -/
def keptAt (file : List (Path × PathEntry)) (p : Path) : List (Path × PathEntry) :=
  (file.filter fun c => c.1 = p).filter fun c => !c.2.isDeletion

theorem IsAddedAt.keptAt_ne_nil (h : IsAddedAt file d) : keptAt file d ≠ [] := by
  obtain ⟨c, hc, hd, hkind⟩ := h
  refine List.ne_nil_of_mem (a := c) ?_
  simp [keptAt, hc, hd, isDeletion_of_added hkind]

/-- The destinations are the paths at which the file is added. -/
theorem mem_addPaths : (p, occs) ∈ addPaths (pathsSeen (file.map occurrence)) ↔
    IsAddedAt file p ∧ occs = (keptAt file p).map occurrence := by
  rw [addPaths, List.mem_filterMap]
  constructor
  · rintro ⟨⟨q, l⟩, hmem, h⟩
    have hl := mem_pathsSeen hmem
    split_ifs at h with hif
    obtain ⟨rfl, rfl⟩ := Prod.mk.inj (Option.some.inj h)
    rw [Bool.and_eq_true] at hif
    dsimp only at hif
    rw [hl] at hif
    exact ⟨hasAdd_iff.mp hif.1, by rw [hl, nonDeletes_map, keptAt]⟩
  · rintro ⟨hadd, rfl⟩
    obtain ⟨c, hc, hp, -⟩ := id hadd
    obtain ⟨⟨q, l⟩, hmem, heq⟩ := List.mem_map.mp (mem_keys_pathsSeen.mpr ⟨c, hc, hp⟩)
    dsimp only at heq
    subst heq
    have hl := mem_pathsSeen hmem
    refine ⟨(q, l), hmem, ?_⟩
    have hne : nonDeletes l ≠ [] := by
      rw [hl, nonDeletes_map]
      exact fun h => hadd.keptAt_ne_nil (List.map_eq_nil_iff.mp h)
    have hadd : hasAdd l = true := hl ▸ hasAdd_iff.mpr hadd
    rw [if_pos (by simpa [hadd] using hne), hl, nonDeletes_map, keptAt]

theorem nodup_addPaths (file : List (Path × PathEntry)) :
    ((addPaths (pathsSeen (file.map occurrence))).map Prod.fst).Nodup := by
  have hsub : ∀ l : List (Path × List FileIdOccurrence),
      ((addPaths l).map Prod.fst).Sublist (l.map Prod.fst) := by
    intro l
    induction l with
    | nil => exact List.Sublist.refl _
    | cons s l ih =>
      rw [addPaths, List.filterMap_cons, List.map_cons]
      split
      · exact ih.cons _
      · next h =>
        split_ifs at h
        cases h
        exact ih.cons_cons _
  exact (hsub _).nodup (nodup_pathsSeen _)

theorem mem_deleteOccurrences {o : FileIdOccurrence} :
    o ∈ deleteOccurrences (pathsSeen (file.map occurrence)) ↔
      ∃ c ∈ file, c.2.isDeletion ∧ occurrence c = o := by
  have hmem : o ∈ deleteOccurrences (pathsSeen (file.map occurrence)) ↔
      ∃ p, (p, o) ∈ flatten (pathsSeen (file.map occurrence)) ∧ o.isDeletion := by
    simp only [deleteOccurrences, flatten, List.mem_flatMap, List.mem_filter, List.mem_map]
    constructor
    · rintro ⟨s, hs, ho, hdel⟩
      exact ⟨s.1, ⟨s, hs, o, ho, rfl⟩, hdel⟩
    · rintro ⟨p, ⟨s, hs, o', ho, heq⟩, hdel⟩
      obtain rfl := (Prod.mk.inj heq).2
      exact ⟨s, hs, ho, hdel⟩
  rw [hmem]
  simp only [(flatten_pathsSeen_perm file).mem_iff, List.mem_map]
  constructor
  · rintro ⟨p, ⟨c, hc, heq⟩, hdel⟩
    obtain rfl := (Prod.mk.inj heq).2
    exact ⟨c, hc, hdel, rfl⟩
  · rintro ⟨c, hc, hdel, rfl⟩
    exact ⟨c.1, ⟨c, hc, rfl⟩, hdel⟩

/-- The deleters are the workspaces that only delete the file, at other paths. -/
theorem actualPureDeleters_eq_nil :
    actualPureDeleters (file.map occurrence) (pathsSeen (file.map occurrence)) d
        ((keptAt file d).map occurrence) = [] ↔
      ¬ IsDeletedBeside file d := by
  have hnon (w : WorkspaceId) :
      w ∈ (nonDeletes (file.map occurrence)).map (·.workspaceId) ↔
        ∃ c ∈ file, c.2.workspaceId = w ∧ c.2.isDeletion = false := by
    rw [nonDeletes_map, List.map_map, List.mem_map]
    simp only [List.mem_filter, Bool.not_eq_true']
    constructor
    · rintro ⟨c, ⟨hc, hdel⟩, rfl⟩
      exact ⟨c, hc, rfl, hdel⟩
    · rintro ⟨c, hc, rfl, hdel⟩
      exact ⟨c, ⟨hc, hdel⟩, rfl⟩
  have hsub (w : WorkspaceId) (hw : w ∈ ((keptAt file d).map occurrence).map (·.workspaceId)) :
      w ∈ (nonDeletes (file.map occurrence)).map (·.workspaceId) := by
    rw [List.map_map, List.mem_map] at hw
    obtain ⟨c, hc, rfl⟩ := hw
    simp only [keptAt, List.mem_filter, Bool.not_eq_true'] at hc
    exact (hnon _).mpr ⟨c, hc.1.1, rfl, hc.2⟩
  rw [List.eq_nil_iff_forall_not_mem, IsDeletedBeside, not_exists]
  simp only [actualPureDeleters, List.mem_filter, mem_deleteOccurrences, Bool.and_eq_true,
    Bool.not_eq_true', decide_eq_true_iff, List.contains_eq_mem, decide_eq_false_iff_not]
  constructor
  · rintro h c ⟨hc, hdel, hne, hall⟩
    have hfree : c.2.workspaceId ∉ (nonDeletes (file.map occurrence)).map (·.workspaceId) := by
      rw [hnon]
      rintro ⟨c', hc', hw, hdel'⟩
      rw [hall c' hc' hw] at hdel'
      cases hdel'
    exact h (occurrence c) ⟨⟨⟨c, hc, hdel, rfl⟩, fun hw => hfree (hsub _ hw), hne⟩, hfree⟩
  · rintro h o ⟨⟨⟨c, hc, hdel, rfl⟩, -, hne⟩, hfree⟩
    refine h c ⟨hc, hdel, hne, fun c' hc' hw => ?_⟩
    by_contra hnot
    exact hfree ((hnon _).mpr ⟨c', hc', hw, by simpa using hnot⟩)

/-- A file with one path is not reported and not moved. -/
theorem exists_ne_of_length (h : ¬ (pathsSeen (file.map occurrence)).length ≤ 1) (d : Path) :
    ∃ c ∈ file, c.1 ≠ d := by
  by_contra hall
  push Not at hall
  refine h ?_
  have hsub : (pathsSeen (file.map occurrence)).map Prod.fst ⊆ [d] := by
    intro p hp
    obtain ⟨c, hc, rfl⟩ := mem_keys_pathsSeen.mp hp
    exact List.mem_singleton.mpr (hall c hc)
  have hlen := (List.subperm_of_subset (nodup_pathsSeen _) hsub).length_le
  rwa [List.length_map, List.length_singleton] at hlen

theorem eq_of_length (h : (pathsSeen (file.map occurrence)).length ≤ 1) {c c' : Path × PathEntry}
    (hc : c ∈ file) (hc' : c' ∈ file) : c.1 = c'.1 := by
  by_contra hne
  have hsub : [c.1, c'.1] ⊆ (pathsSeen (file.map occurrence)).map Prod.fst := by
    rintro p hp
    rcases List.mem_pair.mp hp with rfl | rfl
    · exact mem_keys_pathsSeen.mpr ⟨c, hc, rfl⟩
    · exact mem_keys_pathsSeen.mpr ⟨c', hc', rfl⟩
  have hlen := (List.subperm_of_subset (by simpa using hne) hsub).length_le
  rw [List.length_map] at hlen
  simp only [List.length_cons, List.length_nil] at hlen
  omega

/-- The file is taken out and reported. -/
def FileHandling.Reports (h : FileHandling) (fileId : FileId) (file : List (Path × PathEntry)) :
    Prop :=
  (∃ c, h.conflict = some c ∧ c.fileId = fileId) ∧
    h.consumed = file.map (fun c => (c.1, c.2.workspaceId)) ∧ h.rerouted = []

/-- The changes of the file are moved. -/
structure FileHandling.Moves (h : FileHandling) (file : List (Path × PathEntry)) (d : Path) :
    Prop where
  conflict : h.conflict = none
  consumed : ∀ k, k ∈ h.consumed ↔
    ∃ c ∈ file, (c.1, c.2.workspaceId) = k ∧ (c.1 = d → c.2.isDeletion = false)
  rerouted : h.rerouted.Perm ((file.filter fun c => !c.2.isDeletion).map fun c => (d, c.2))

theorem rerouteFile_moves :
    (rerouteFile (pathsSeen (file.map occurrence)) d ((keptAt file d).map occurrence)).Moves
      file d := by
  have hold : (((pathsSeen (file.map occurrence)).filter fun s => s.1 ≠ d).flatMap Prod.snd).Perm
      ((file.filter fun c => c.1 ≠ d).map occurrence) := by
    have h := (flatten_pathsSeen_perm file).filter fun s => s.1 ≠ d
    have hsnd := h.map Prod.snd
    rw [← flatMap_snd_filter _ fun p => p ≠ d, List.filter_map, List.map_map] at hsnd
    exact hsnd
  have hkeys := hold.map (·.key)
  constructor
  · rfl
  · intro k
    rw [rerouteFile, List.mem_append, hkeys.mem_iff, List.map_map, List.map_map]
    simp only [List.mem_map, keptAt, List.mem_filter, decide_eq_true_iff, Bool.not_eq_true']
    constructor
    · rintro (⟨c, ⟨hc, hne⟩, hk⟩ | ⟨c, ⟨⟨hc, -⟩, hdel⟩, hk⟩)
      · exact ⟨c, hc, hk, fun heq => absurd heq hne⟩
      · exact ⟨c, hc, hk, fun _ => hdel⟩
    · rintro ⟨c, hc, hk, hdel⟩
      by_cases heq : c.1 = d
      · exact .inr ⟨c, ⟨⟨hc, heq⟩, hdel heq⟩, hk⟩
      · exact .inl ⟨c, ⟨hc, heq⟩, hk⟩
  · have hnon := (hold.filter fun o => !o.isDeletion).map fun o => (d, o.entry)
    have hsplit := (List.filter_append_perm (fun c : Path × PathEntry => c.1 ≠ d)
      (file.filter fun c => !c.2.isDeletion)).map fun c => (d, c.2)
    rw [List.map_append] at hsplit
    refine ((List.Perm.append hnon (.refl _)).trans (.of_eq ?_)).trans hsplit
    rw [List.filter_map, List.map_map, List.map_map, keptAt, List.filter_filter, List.filter_filter,
      List.filter_filter, List.filter_filter]
    simp only [Bool.and_comm, decide_not, Bool.not_not]
    rfl

theorem isAddedAt_iff (file : List (Path × PathEntry)) (d : Path) :
    IsAddedAt file d ↔ d ∈ (addPaths (pathsSeen (file.map occurrence))).map Prod.fst := by
  rw [List.mem_map]
  constructor
  · exact fun h => ⟨(d, _), mem_addPaths.mpr ⟨h, rfl⟩, rfl⟩
  · rintro ⟨⟨_, occs⟩, h, rfl⟩
    exact (mem_addPaths.mp h).1

/-- What is done with a file, along the cases of the code. -/
theorem handleFile_cases (fileId : FileId) (file : List (Path × PathEntry)) :
    IsReported file ∧ (handleFile fileId (file.map occurrence)).Reports fileId file ∨
      (∃ d, IsMovedTo file d ∧ (handleFile fileId (file.map occurrence)).Moves file d) ∨
      ¬ IsReported file ∧ (∀ d, ¬ IsMovedTo file d) ∧
        handleFile fileId (file.map occurrence) = .nothing := by
  have hkeys : ((file.map occurrence).map (·.key)) = file.map fun c => (c.1, c.2.workspaceId) := by
    rw [List.map_map]
    rfl
  rw [handleFile]
  by_cases hlen : (pathsSeen (file.map occurrence)).length ≤ 1
  · rw [if_pos hlen]
    have hone {c c' : Path × PathEntry} (hc : c ∈ file) (hc' : c' ∈ file) :=
      eq_of_length hlen hc hc'
    refine .inr (.inr ⟨?_, ?_, rfl⟩)
    · rintro (⟨d, d', hne, ⟨c, hc, rfl, -⟩, c', hc', rfl, -⟩ |
        ⟨d, ⟨c, hc, rfl, -⟩, c', hc', -, hne, -⟩)
      · exact hne (hone hc hc')
      · exact hne (hone hc' hc)
    · rintro d ⟨⟨c, hc, rfl, -⟩, -, c', hc', hne⟩
      exact hne (hone hc' hc)
  rw [if_neg hlen]
  have hadded := isAddedAt_iff file
  have hnodup := nodup_addPaths file
  rcases hadds : addPaths (pathsSeen (file.map occurrence)) with _ | ⟨⟨d, occs⟩, _ | ⟨second, adds⟩⟩
  · -- the file is added nowhere
    have hnone (d : Path) : ¬ IsAddedAt file d := by
      rw [hadded, hadds]
      exact List.not_mem_nil
    refine .inr (.inr ⟨?_, fun d h => hnone d h.1, rfl⟩)
    rintro (⟨d, -, -, h, -⟩ | ⟨d, h, -⟩)
    · exact hnone d h
    · exact hnone d h
  · -- the file is added at one path
    have hmem : (d, occs) ∈ addPaths (pathsSeen (file.map occurrence)) := by
      rw [hadds]
      exact List.mem_singleton_self _
    obtain ⟨hadd, rfl⟩ := mem_addPaths.mp hmem
    have honly (d' : Path) (h : IsAddedAt file d') : d' = d := by
      rw [hadded, hadds] at h
      exact List.mem_singleton.mp h
    have hdiv : ¬ IsDivergent file := by
      rintro ⟨d₁, d₂, hne, h₁, h₂⟩
      exact hne ((honly d₁ h₁).trans (honly d₂ h₂).symm)
    have hreported : IsReported file ↔ IsDeletedBeside file d := by
      rw [IsReported, or_iff_right hdiv]
      constructor
      · rintro ⟨d', h, hdel⟩
        exact honly d' h ▸ hdel
      · exact fun hdel => ⟨d, hadd, hdel⟩
    dsimp only
    by_cases hdel : IsDeletedBeside file d
    · refine .inl ⟨hreported.mpr hdel, ?_⟩
      rcases hpure : actualPureDeleters (file.map occurrence) (pathsSeen (file.map occurrence)) d
          ((keptAt file d).map occurrence) with _ | ⟨deleter, deleters⟩
      · exact absurd hdel (actualPureDeleters_eq_nil.mp hpure)
      · rcases hocc : keptAt file d with _ | ⟨c, cs⟩
        · exact absurd hocc hadd.keptAt_ne_nil
        · rw [List.map_cons]
          exact ⟨⟨_, rfl, rfl⟩, hkeys, rfl⟩
    · rw [actualPureDeleters_eq_nil.mpr hdel]
      exact .inr (.inl ⟨d, ⟨hadd, hreported.not.mpr hdel, exists_ne_of_length hlen d⟩,
        rerouteFile_moves⟩)
  · -- the file is added at two paths
    rw [hadds] at hnodup
    obtain ⟨hfirst, -⟩ := List.nodup_cons.mp hnodup
    have hadd₁ : IsAddedAt file d := by simp [hadded, hadds]
    have hadd₂ : IsAddedAt file second.1 := by simp [hadded, hadds]
    refine .inl ⟨.inl ⟨d, second.1, ?_, hadd₁, hadd₂⟩, ⟨_, rfl, rfl⟩, hkeys, rfl⟩
    rintro rfl
    exact hfirst List.mem_cons_self

/-- A conflict names the file. -/
theorem fileId_of_conflict {c : RenameConflict} (h : (handleFile fileId occs).conflict = some c) :
    c.fileId = fileId := by
  rw [handleFile] at h
  split_ifs at h
  · cases h
  split at h
  · cases h
  · split at h
    · obtain rfl := Option.some.inj h
      rfl
    · cases h
  · obtain rfl := Option.some.inj h
    rfl

theorem handleFile_reports (fileId : FileId) (h : IsReported file) :
    (handleFile fileId (file.map occurrence)).Reports fileId file := by
  rcases handleFile_cases fileId file with ⟨-, hr⟩ | ⟨d, hm, -⟩ | ⟨hn, -⟩
  · exact hr
  · exact absurd h hm.2.1
  · exact absurd h hn

/-- The changes that are taken out are those of reported files, and of moved ones. -/
theorem mem_consumed {k : Path × WorkspaceId} :
    k ∈ (handleFile fileId (file.map occurrence)).consumed ↔
      ∃ c ∈ file, (c.1, c.2.workspaceId) = k ∧ IsTakenOf file c := by
  rcases handleFile_cases fileId file with ⟨hr, -, hcons, -⟩ | ⟨d, hm, hmoves⟩ | ⟨hn, hnm, heq⟩
  · rw [hcons, List.mem_map]
    constructor
    · rintro ⟨c, hc, hk⟩
      exact ⟨c, hc, hk, .inl hr⟩
    · rintro ⟨c, hc, hk, -⟩
      exact ⟨c, hc, hk⟩
  · rw [hmoves.consumed]
    constructor
    · rintro ⟨c, hc, hk, hdel⟩
      exact ⟨c, hc, hk, .inr ⟨d, hm, hdel⟩⟩
    · rintro ⟨c, hc, hk, hr | ⟨d', hm', hdel⟩⟩
      · exact absurd hr hm.2.1
      · exact ⟨c, hc, hk, hm.eq hm' ▸ hdel⟩
  · rw [heq]
    constructor
    · exact fun h => absurd h List.not_mem_nil
    · rintro ⟨c, -, -, hr | ⟨d, hm, -⟩⟩
      · exact absurd hr hn
      · exact absurd hm (hnm d)

/-- The changes that are moved to a path are those of the files that are moved there, but for the
deletions. -/
theorem rerouted_perm (p : Path) (q : Path × PathEntry → Prop) [DecidablePred q]
    (hq : ∀ c ∈ file, q c ↔ IsMovedTo file p ∧ c.2.isDeletion = false) :
    ((handleFile fileId (file.map occurrence)).rerouted.filter fun r => r.1 = p).Perm
      ((file.filter q).map fun c => (p, c.2)) := by
  have hempty (h : ¬ IsMovedTo file p) : file.filter q = [] := by
    rw [List.filter_eq_nil_iff]
    intro c hc hqc
    exact h ((hq c hc).mp (of_decide_eq_true hqc)).1
  rcases handleFile_cases fileId file with ⟨hr, -, -, hre⟩ | ⟨d, hm, hmoves⟩ | ⟨-, hnm, heq⟩
  · rw [hre, hempty fun hm => hm.2.1 hr]
    exact .nil
  · refine (hmoves.rerouted.filter _).trans (.of_eq ?_)
    rw [filter_keyed d _ _ (· = p)]
    by_cases hp : d = p
    · subst hp
      rw [if_pos rfl]
      congr 1
      refine List.filter_congr fun c hc => ?_
      rw [Bool.eq_iff_iff, decide_eq_true_iff, hq c hc, Bool.not_eq_true', and_iff_right hm]
    · rw [if_neg hp, hempty fun hm' => hp (hm.eq hm')]
      rfl
  · rw [heq, hempty (hnm p)]
    exact .nil

end Handling

end Maw
