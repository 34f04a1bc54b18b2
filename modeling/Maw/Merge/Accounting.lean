import Maw.Merge.Resolve

/-!
# Every touched path is accounted for

A run of the resolution turns each touched path that is in no clash into one change or one
record. A path of a clash gets a record when it is the file of the clash, and is otherwise only
listed in a record when it is the first path below the file.

## Main definitions

* `AccountedOnce` — the path of one change, of one record, or listed in a record.
* `FirstClash` — the clash that the record of a file lists.

## Main results

* `count_result` — how many changes and records a path gets.
* `resolve_accountedOnce_iff` — when every touched path is accounted for exactly once.
-/

open ExceptRun KeyedSort PointwiseFold

namespace Maw

/-! ### The records of the clashes -/

section Emit

variable {clashes : List DfClash} {clash : DfClash} {p : Path} {record : ConflictRecord}

theorem lookup_byFile (clashes : List DfClash) :
    (byFile clashes).lookup p = itemAt DfClash.filePath clashes p := by
  have hfold : ∀ (l : List DfClash) (m : FiniteMap Path DfClash),
      (l.foldl (fun byFile clash => if clash.filePath ∈ byFile then byFile
        else byFile.insert clash.filePath clash) m).lookup p =
        (m.lookup p).or (itemAt DfClash.filePath l p) := by
    intro l
    induction l with
    | nil => simp
    | cons clash l ih =>
      intro m
      rw [List.foldl_cons, ih, itemAt_cons]
      by_cases hp : clash.filePath = p
      · subst hp
        rw [if_pos rfl]
        split_ifs with hmem
        · obtain ⟨k, hk⟩ := Finmap.mem_iff.mp hmem
          rw [hk, Option.some_or, Option.some_or]
        · rw [Finmap.lookup_insert, Finmap.lookup_eq_none.mpr hmem, Option.some_or, Option.none_or]
      · rw [if_neg hp]
        split_ifs with hmem
        · rfl
        · rw [FiniteMap.lookup_insert, if_neg (Ne.symm hp)]
  rw [byFile, hfold, Finmap.lookup_empty, Option.none_or]

theorem mem_byFile : (p, clash) ∈ (byFile clashes).sortedEntries ↔
    itemAt DfClash.filePath clashes p = some clash := by
  rw [FiniteMap.mem_sortedEntries, lookup_byFile]

/-- Each file of a clash gets the record of its first clash. -/
theorem mem_emitDfClashConflicts : record ∈ emitDfClashConflicts clashes ↔
    ∃ clash, itemAt DfClash.filePath clashes clash.filePath = some clash ∧
      dfClashRecord clash = record := by
  rw [emitDfClashConflicts, List.mem_map]
  constructor
  · rintro ⟨⟨f, clash⟩, hmem, hrecord⟩
    have hitem := mem_byFile.mp hmem
    exact ⟨clash, key_of_itemAt hitem ▸ hitem, hrecord⟩
  · rintro ⟨clash, hitem, hrecord⟩
    exact ⟨(clash.filePath, clash), mem_byFile.mpr hitem, hrecord⟩

theorem emitDfClashConflicts_nodup (clashes : List DfClash) :
    ((emitDfClashConflicts clashes).map (·.path)).Nodup := by
  have hpath : ∀ e ∈ (byFile clashes).sortedEntries,
      ((·.path) ∘ fun e : Path × DfClash => dfClashRecord e.2) e = e.1 := by
    rintro ⟨f, clash⟩ hmem
    have hf : clash.filePath = f := key_of_itemAt (mem_byFile.mp hmem)
    exact hf
  rw [emitDfClashConflicts, List.map_map, List.map_congr_left hpath]
  exact FiniteMap.nodup_sortedEntries _

theorem exists_record_iff {f : Path} : (∃ record ∈ emitDfClashConflicts clashes, record.path = f) ↔
    ∃ clash ∈ clashes, clash.filePath = f := by
  constructor
  · rintro ⟨record, hmem, rfl⟩
    obtain ⟨clash, hitem, rfl⟩ := mem_emitDfClashConflicts.mp hmem
    exact ⟨clash, mem_of_itemAt hitem, rfl⟩
  · rintro ⟨clash, hmem, rfl⟩
    have hkey : clash.filePath ∈ clashes.map DfClash.filePath := List.mem_map_of_mem hmem
    cases hitem : itemAt DfClash.filePath clashes clash.filePath with
    | none => exact absurd hkey (itemAt_eq_none.mp hitem)
    | some first =>
      have hf := key_of_itemAt hitem
      exact ⟨_, mem_emitDfClashConflicts.mpr ⟨first, hf ▸ hitem, rfl⟩, hf⟩

end Emit

/-! ### The clash that a record lists -/

section First

variable {routines : SliceRoutines} {patchSets : List PatchSet} {f c p : Path} {clash : DfClash}

/-- The clash of the file `f` that its record lists. -/
def FirstClash (routines : SliceRoutines) (patchSets : List PatchSet) (f c : Path) : Prop :=
  FileClash routines patchSets f c ∧ ∀ d, FileClash routines patchSets f d → c ≤ d

theorem dfClashes_sorted (routines : SliceRoutines) (patchSets : List PatchSet) :
    (partitionByPath routines patchSets).dfClashes.Pairwise fun a b => a.key ≤ b.key := by
  rw [dfClashes_eq]
  exact (routines.sortClashes.sorted _).sublist (dedupBy_sublist _)

theorem firstClash_of_itemAt
    (h : itemAt DfClash.filePath (partitionByPath routines patchSets).dfClashes f = some clash) :
    FirstClash routines patchSets f clash.dirChildExample := by
  have hf := key_of_itemAt h
  refine ⟨exists_mem_dfClashes_iff.mp ⟨clash, mem_of_itemAt h, hf, rfl⟩, fun d hd => ?_⟩
  obtain ⟨k, hk, hkf, rfl⟩ := exists_mem_dfClashes_iff.mpr hd
  have hle := find?_of_sorted (dfClashes_sorted routines patchSets) h hk (by simpa using hkf)
  rw [DfClash.key, DfClash.key, Prod.Lex.toLex_le_toLex, hf, hkf] at hle
  exact hle.elim (fun hlt => absurd hlt (lt_irrefl f)) And.right

theorem firstClash_iff : FirstClash routines patchSets f c ↔
    ∃ clash, itemAt DfClash.filePath (partitionByPath routines patchSets).dfClashes f =
      some clash ∧ clash.dirChildExample = c := by
  constructor
  · rintro ⟨hclash, hle⟩
    obtain ⟨k, hk, hkf, -⟩ := exists_mem_dfClashes_iff.mpr hclash
    cases h : itemAt DfClash.filePath (partitionByPath routines patchSets).dfClashes f with
    | none => exact absurd (List.mem_map_of_mem hk) (hkf ▸ itemAt_eq_none.mp h)
    | some first =>
      have hfirst := firstClash_of_itemAt h
      exact ⟨first, rfl, le_antisymm (hfirst.2 c hclash) (hle _ hfirst.1)⟩
  · rintro ⟨clash, h, rfl⟩
    exact firstClash_of_itemAt h

/-- The paths that resolution leaves to the records of the clashes. -/
theorem mem_dfClashPaths : p ∈ (partitionByPath routines patchSets).dfClashPaths ↔
    (∃ c, FileClash routines patchSets p c) ∨ ∃ f, FileClash routines patchSets f p := by
  rw [PartitionResult.dfClashPaths, List.mem_flatMap]
  simp only [List.mem_cons, List.not_mem_nil, or_false, ← exists_mem_dfClashes_iff]
  constructor
  · rintro ⟨clash, hmem, rfl | rfl⟩
    · exact .inl ⟨_, clash, hmem, rfl, rfl⟩
    · exact .inr ⟨_, clash, hmem, rfl, rfl⟩
  · rintro (⟨c, clash, hmem, hf, -⟩ | ⟨f, clash, hmem, -, hc⟩)
    · exact ⟨clash, hmem, .inl hf.symm⟩
    · exact ⟨clash, hmem, .inr hc.symm⟩

end First

/-! ### A run of the resolution -/

section Run

variable {routines : SliceRoutines} {patchSets : List PatchSet} {p : Path} {r : ResolveResult}
  {outcomes : List SharedOutcome}
  {resolveShared : Path → List PathEntry → Option Bytes → Except ResolveError SharedOutcome}
  {baseContents : FiniteMap Path Bytes}

/-- What a run of the resolution puts together: an outcome for each path in no clash, and the
records of the clashes. -/
structure ResolvedFrom (routines : SliceRoutines) (patchSets : List PatchSet)
    (outcomes : List SharedOutcome) (r : ResolveResult) : Prop where
  nodup : (outcomes.map (·.path)).Nodup
  mem_paths : ∀ p, p ∈ outcomes.map (·.path) ↔
    Touched patchSets p ∧ p ∉ (partitionByPath routines patchSets).dfClashPaths
  live : ∀ p c, .resolved (.upsert p c) ∈ outcomes → IsLive patchSets p
  ne_fileDirectory : ∀ record, .conflict record ∈ outcomes →
    ∀ s d, record.reason ≠ .fileDirectory s d
  resolved : r.resolved.Perm (outcomes.filterMap SharedOutcome.change?)
  conflicts : r.conflicts.Perm (emitDfClashConflicts (partitionByPath routines patchSets).dfClashes
    ++ outcomes.filterMap SharedOutcome.record?)

theorem resolveUnique_isOutcome (u : Path × PathEntry) :
    IsOutcome u.1 [u.2] (resolveUnique baseContents u) := by
  rw [resolveUnique]
  split_ifs with hdel
  · exact isOutcome_delete
  · have hlive : ∃ e ∈ [u.2], e.isDeletion = false := ⟨u.2, by simp, by simpa using hdel⟩
    cases u.2.content with
    | some c => exact isOutcome_upsert hlive
    | none => exact ⟨rfl, by simp, by simp⟩

theorem mem_unique_paths : p ∈ (partitionByPath routines patchSets).unique.map Prod.fst ↔
    ∃ e, entriesAt patchSets p = [e] := by
  rw [List.mem_map]
  constructor
  · rintro ⟨⟨_, e⟩, h, rfl⟩
    exact ⟨e, (mem_unique routines).mp h⟩
  · rintro ⟨e, h⟩
    exact ⟨(p, e), (mem_unique routines).mpr h, rfl⟩

theorem mem_shared_paths : p ∈ (partitionByPath routines patchSets).shared.map Prod.fst ↔
    2 ≤ (entriesAt patchSets p).length := by
  rw [List.mem_map]
  constructor
  · rintro ⟨⟨_, es⟩, h, rfl⟩
    exact ((mem_shared routines).mp h).2
  · exact fun h => ⟨(p, _), (mem_shared routines).mpr ⟨rfl, h⟩, rfl⟩

/-- The paths of the two parts of a partition. -/
def partitionPaths (partition : PartitionResult) : List Path :=
  partition.unique.map Prod.fst ++ partition.shared.map Prod.fst

theorem partitionPaths_nodup (routines : SliceRoutines) (patchSets : List PatchSet) :
    (partitionPaths (partitionByPath routines patchSets)).Nodup := by
  have hkeys := FiniteMap.nodup_sortedEntries (pathIndex patchSets)
  have hunique : ((partitionByPath routines patchSets).unique.map Prod.fst).Nodup := by
    refine nodup_map_filterMap ?_ hkeys
    rintro ⟨p, es⟩ ⟨q, e⟩ h
    match es with
    | [_] => exact (Prod.mk.inj (Option.some.inj h)).1.symm
  have hshared : ((partitionByPath routines patchSets).shared.map Prod.fst).Nodup := by
    refine nodup_map_filterMap ?_ hkeys
    rintro ⟨p, es⟩ ⟨q, es'⟩ h
    match es with
    | [] | _ :: _ :: _ => exact (Prod.mk.inj (Option.some.inj h)).1.symm
  refine List.nodup_append.mpr ⟨hunique, hshared, ?_⟩
  rintro p hp q hq rfl
  obtain ⟨e, he⟩ := mem_unique_paths.mp hp
  have hlen := mem_shared_paths.mp hq
  simp [he] at hlen

theorem mem_partitionPaths : p ∈ partitionPaths (partitionByPath routines patchSets) ↔
    Touched patchSets p := by
  rw [partitionPaths, List.mem_append, mem_unique_paths, mem_shared_paths, Touched]
  rcases entriesAt patchSets p with _ | ⟨_, _ | ⟨_, _⟩⟩ <;> simp

/-- The outcomes of a run are those of the paths in no clash, in the order of the partition. -/
theorem outcomes_paths {shared : List SharedOutcome}
    (hspec : ∀ p es base o, resolveShared p es base = .ok o → IsOutcome p es o)
    (h : resolveShareds resolveShared (partitionByPath routines patchSets) baseContents =
      .ok shared) :
    (resolveUniques (partitionByPath routines patchSets) baseContents ++ shared).map (·.path) =
      (partitionPaths (partitionByPath routines patchSets)).filter fun p =>
        p ∉ (partitionByPath routines patchSets).dfClashPaths := by
  have hshared := map_of_mapM (g := Prod.fst) (fun s o ho => (hspec _ _ _ _ ho).path_eq) h
  have hunique : (·.path) ∘ resolveUnique baseContents = Prod.fst :=
    funext fun u => (resolveUnique_isOutcome u).path_eq
  rw [List.map_append, hshared, resolveUniques, List.map_map, hunique, partitionPaths,
    List.filter_append, List.filter_map, List.filter_map]
  rfl

theorem isOutcome_of_mem {shared : List SharedOutcome}
    (hspec : ∀ p es base o, resolveShared p es base = .ok o → IsOutcome p es o)
    (h : resolveShareds resolveShared (partitionByPath routines patchSets) baseContents =
      .ok shared) {o : SharedOutcome}
    (ho : o ∈ resolveUniques (partitionByPath routines patchSets) baseContents ++ shared) :
    ∃ es, IsOutcome o.path es o ∧ ∀ e ∈ es, e ∈ entriesAt patchSets o.path := by
  rcases List.mem_append.mp ho with ho | ho
  · obtain ⟨⟨p, e⟩, hu, rfl⟩ := List.mem_map.mp ho
    have hout : IsOutcome p [e] (resolveUnique baseContents (p, e)) :=
      resolveUnique_isOutcome (p, e)
    have he := (mem_unique routines).mp (List.mem_of_mem_filter hu)
    rw [hout.path_eq, he]
    exact ⟨[e], hout, fun _ h => h⟩
  · obtain ⟨⟨p, es⟩, hs, hrun⟩ := exists_of_mem_mapM h ho
    have hout := hspec _ _ _ _ hrun
    obtain ⟨rfl, -⟩ := (mem_shared routines).mp (List.mem_of_mem_filter hs)
    rw [hout.path_eq]
    exact ⟨_, hout, fun e => mem_byWorkspace.mp⟩

theorem exists_resolvedFrom
    (hspec : ∀ p es base o, resolveShared p es base = .ok o → IsOutcome p es o)
    (hrun : resolvePartitionBy resolveShared (partitionByPath routines patchSets) baseContents =
      .ok r) : ∃ outcomes, ResolvedFrom routines patchSets outcomes r := by
  rw [resolvePartitionBy, bind_eq_ok] at hrun
  obtain ⟨shared, hshared, hr⟩ := hrun
  rw [pure_eq_ok] at hr
  subst hr
  have hpaths := outcomes_paths hspec hshared
  refine ⟨_, ?_, ?_, ?_, ?_, List.perm_insertionSort _ _, List.perm_insertionSort _ _⟩
  · rw [hpaths]
    exact (partitionPaths_nodup routines patchSets).filter _
  · intro p
    rw [hpaths, List.mem_filter, mem_partitionPaths, decide_eq_true_iff]
  · intro p c ho
    obtain ⟨es, hout, hes⟩ := isOutcome_of_mem hspec hshared ho
    obtain ⟨e, he, hlive⟩ := hout.exists_live c rfl
    exact ⟨e, hes e he, hlive⟩
  · intro record ho
    obtain ⟨es, hout, -⟩ := isOutcome_of_mem hspec hshared ho
    exact hout.ne_fileDirectory record rfl

end Run

/-! ### The account of a path -/

section Account

variable {routines : SliceRoutines} {patchSets : List PatchSet} {p : Path} {r : ResolveResult}
  {outcomes : List SharedOutcome}

/-- Whether the record of a clash lists the path. -/
def ConflictRecord.lists (record : ConflictRecord) (p : Path) : Bool :=
  match record.reason with
  | .fileDirectory _ child => child = p
  | _ => false

/-- The path is the path of one change, or of one record, or the record of a clash lists it, and
only one of the three. -/
def AccountedOnce (r : ResolveResult) (p : Path) : Prop :=
  (r.resolved.map (·.path)).count p + (r.conflicts.map (·.path)).count p +
    (r.conflicts.any (·.lists p)).toNat = 1

instance : Decidable (AccountedOnce r p) := inferInstanceAs (Decidable (_ = _))

theorem count_outcomes (outcomes : List SharedOutcome) (p : Path) :
    ((outcomes.filterMap SharedOutcome.change?).map (·.path)).count p +
      ((outcomes.filterMap SharedOutcome.record?).map (·.path)).count p =
        (outcomes.map (·.path)).count p := by
  induction outcomes with
  | nil => rfl
  | cons o outcomes ih =>
    cases o with
    | resolved change =>
      have hpath : (SharedOutcome.resolved change).path = change.path := rfl
      rw [List.filterMap_cons_some (show SharedOutcome.change? _ = some change from rfl),
        List.filterMap_cons_none (show SharedOutcome.record? _ = none from rfl), List.map_cons,
        List.map_cons, List.count_cons, List.count_cons, hpath, ← ih]
      omega
    | conflict record =>
      have hpath : (SharedOutcome.conflict record).path = record.path := rfl
      rw [List.filterMap_cons_none (show SharedOutcome.change? _ = none from rfl),
        List.filterMap_cons_some (show SharedOutcome.record? _ = some record from rfl),
        List.map_cons, List.map_cons, List.count_cons, List.count_cons, hpath, ← ih]
      omega

namespace ResolvedFrom

/-- The changes and records of a path are the record of its clash and its outcome. -/
theorem count_result (h : ResolvedFrom routines patchSets outcomes r) (p : Path) :
    (r.resolved.map (·.path)).count p + (r.conflicts.map (·.path)).count p =
      ((emitDfClashConflicts (partitionByPath routines patchSets).dfClashes).map (·.path)).count p
        + (outcomes.map (·.path)).count p := by
  rw [(h.resolved.map _).count_eq, (h.conflicts.map _).count_eq, List.map_append,
    List.count_append, ← count_outcomes outcomes p]
  omega

theorem mem_emit_iff (routines : SliceRoutines) (patchSets : List PatchSet) (p : Path) :
    p ∈ (emitDfClashConflicts (partitionByPath routines patchSets).dfClashes).map (·.path) ↔
      ∃ c, FileClash routines patchSets p c := by
  rw [List.mem_map, exists_record_iff]
  constructor
  · rintro ⟨clash, hmem, hf⟩
    exact ⟨_, exists_mem_dfClashes_iff.mp ⟨clash, hmem, hf, rfl⟩⟩
  · rintro ⟨c, hc⟩
    obtain ⟨clash, hmem, hf, -⟩ := exists_mem_dfClashes_iff.mpr hc
    exact ⟨clash, hmem, hf⟩

/-- A path in no clash gets one change or one record. -/
theorem count_of_no_clash (h : ResolvedFrom routines patchSets outcomes r)
    (ht : Touched patchSets p) (hfile : ¬ ∃ c, FileClash routines patchSets p c)
    (hchild : ¬ ∃ f, FileClash routines patchSets f p) :
    (r.resolved.map (·.path)).count p + (r.conflicts.map (·.path)).count p = 1 := by
  have hskip : p ∉ (partitionByPath routines patchSets).dfClashPaths := by
    rw [mem_dfClashPaths, not_or]
    exact ⟨hfile, hchild⟩
  rw [h.count_result, List.count_eq_zero.mpr (mt (mem_emit_iff _ _ _).mp hfile),
    List.count_eq_one_of_mem h.nodup ((h.mem_paths p).mpr ⟨ht, hskip⟩)]

/-- The file of a clash gets one record. -/
theorem count_of_file (h : ResolvedFrom routines patchSets outcomes r)
    (hfile : ∃ c, FileClash routines patchSets p c) :
    (r.resolved.map (·.path)).count p + (r.conflicts.map (·.path)).count p = 1 := by
  have hskip : p ∈ (partitionByPath routines patchSets).dfClashPaths :=
    mem_dfClashPaths.mpr (.inl hfile)
  have hnone : p ∉ outcomes.map (·.path) := fun hp => ((h.mem_paths p).mp hp).2 hskip
  rw [h.count_result, List.count_eq_zero.mpr hnone,
    List.count_eq_one_of_mem (emitDfClashConflicts_nodup _) ((mem_emit_iff _ _ _).mpr hfile)]

/-- A path below the file of a clash that is not the file of another one gets nothing. -/
theorem count_of_child (h : ResolvedFrom routines patchSets outcomes r)
    (hfile : ¬ ∃ c, FileClash routines patchSets p c)
    (hchild : ∃ f, FileClash routines patchSets f p) :
    (r.resolved.map (·.path)).count p + (r.conflicts.map (·.path)).count p = 0 := by
  have hskip : p ∈ (partitionByPath routines patchSets).dfClashPaths :=
    mem_dfClashPaths.mpr (.inr hchild)
  have hnone : p ∉ outcomes.map (·.path) := fun hp => ((h.mem_paths p).mp hp).2 hskip
  rw [h.count_result, List.count_eq_zero.mpr hnone,
    List.count_eq_zero.mpr (mt (mem_emit_iff _ _ _).mp hfile)]

theorem lists_iff (h : ResolvedFrom routines patchSets outcomes r) :
    r.conflicts.any (·.lists p) = true ↔ ∃ f, FirstClash routines patchSets f p := by
  rw [List.any_eq_true]
  constructor
  · rintro ⟨record, hmem, hlists⟩
    rcases List.mem_append.mp (h.conflicts.mem_iff.mp hmem) with hmem | hmem
    · obtain ⟨clash, hitem, rfl⟩ := mem_emitDfClashConflicts.mp hmem
      have hp : clash.dirChildExample = p := by
        simpa [ConflictRecord.lists, dfClashRecord] using hlists
      exact ⟨clash.filePath, hp ▸ firstClash_of_itemAt hitem⟩
    · obtain ⟨o, ho, hrecord⟩ := List.mem_filterMap.mp hmem
      cases o with
      | resolved change => cases hrecord
      | conflict record' =>
        obtain rfl := Option.some.inj hrecord
        have hne := h.ne_fileDirectory _ ho
        rw [ConflictRecord.lists] at hlists
        split at hlists
        · exact absurd ‹_› (hne _ _)
        · exact absurd hlists Bool.false_ne_true
  · rintro ⟨f, hfirst⟩
    obtain ⟨clash, hitem, rfl⟩ := firstClash_iff.mp hfirst
    obtain rfl := key_of_itemAt hitem
    refine ⟨dfClashRecord clash, h.conflicts.mem_iff.mpr (List.mem_append_left _ ?_), ?_⟩
    · exact mem_emitDfClashConflicts.mpr ⟨clash, hitem, rfl⟩
    · simp [ConflictRecord.lists, dfClashRecord]

/-- A path of a clash is accounted for once when it is either the file of a clash or listed. -/
theorem accountedOnce_iff (h : ResolvedFrom routines patchSets outcomes r)
    (ht : Touched patchSets p) : AccountedOnce r p ↔
      ((∃ c, FileClash routines patchSets p c) ∨ (∃ f, FileClash routines patchSets f p) →
        ((∃ c, FileClash routines patchSets p c) ↔ ¬ ∃ f, FirstClash routines patchSets f p)) := by
  have hchild : (∃ f, FirstClash routines patchSets f p) → ∃ f, FileClash routines patchSets f p :=
    fun ⟨f, hf⟩ => ⟨f, hf.1⟩
  rw [AccountedOnce]
  by_cases hlist : ∃ f, FirstClash routines patchSets f p
  · rw [h.lists_iff.mpr hlist]
    by_cases hfile : ∃ c, FileClash routines patchSets p c
    · rw [h.count_of_file hfile]
      simp [hfile, hlist]
    · rw [h.count_of_child hfile (hchild hlist)]
      simp [hfile, hlist]
  · rw [Bool.eq_false_iff.mpr (mt h.lists_iff.mp hlist)]
    by_cases hfile : ∃ c, FileClash routines patchSets p c
    · rw [h.count_of_file hfile]
      simp [hfile, hlist]
    · by_cases hc : ∃ f, FileClash routines patchSets f p
      · rw [h.count_of_child hfile hc]
        simp [hfile, hlist, hc]
      · rw [h.count_of_no_clash ht hfile hc]
        simp [hfile, hc]

/-- Only touched paths get a change or a record. -/
theorem touched_of_mem (h : ResolvedFrom routines patchSets outcomes r)
    (hp : p ∈ r.resolved.map (·.path) ∨ p ∈ r.conflicts.map (·.path)) : Touched patchSets p := by
  by_contra ht
  have hfile : ¬ ∃ c, FileClash routines patchSets p c := fun ⟨_, hc⟩ => ht hc.isLive.1.touched
  have hnone : p ∉ outcomes.map (·.path) := fun hp => ht ((h.mem_paths p).mp hp).1
  have hcount := h.count_result p
  rw [List.count_eq_zero.mpr hnone,
    List.count_eq_zero.mpr (mt (mem_emit_iff _ _ _).mp hfile)] at hcount
  rcases hp with hp | hp
  · have := List.count_pos_iff.mpr hp
    omega
  · have := List.count_pos_iff.mpr hp
    omega

end ResolvedFrom

/-- Every path of a clash is either the file of a clash or the one that a record lists. -/
def ClashesListed (routines : SliceRoutines) (patchSets : List PatchSet) : Prop :=
  (∀ f c, FirstClash routines patchSets f c → ¬ ∃ d, FileClash routines patchSets c d) ∧
    ∀ f c, FileClash routines patchSets f c →
      (∃ d, FileClash routines patchSets c d) ∨ ∃ g, FirstClash routines patchSets g c

end Account

section Samples

/-- Sorting and searching that take items with equal keys in their order. -/
def sampleRoutines : SliceRoutines := ⟨.insertion _, .linear _, .insertion _⟩

/-- Tools that merge nothing. -/
def sampleTools : MergeTools where
  diff3MergeBytes _ _ _ := .ok (.conflict [])
  normalizeShiftedBlocks _ _ := none
  astMerge _ := none
  repo := sampleRepo

/-- A workspace that adds files of one byte. -/
def adds (name : String) (files : List (Path × UInt8)) : PatchSet :=
  .new ⟨name⟩ ⟨sampleBlob 7⟩
    (files.map fun file => ⟨file.1, .added, some [file.2], none, none, some .blob⟩)

/-- The workspaces of the rest of this section change files in this directory. -/
def dirPath : Path := ⟨[.lit "d"], by decide⟩

def inDirPath (name : Component) : Path := ⟨[.lit "d", name], by simp⟩

/-- One workspace has a file where another one has a directory. -/
private def oneChild : List PatchSet :=
  [adds "alice" [(dirPath, 1)], adds "bob" [(inDirPath (.lit "x"), 2)]]

/-- The record of the clash at the directory. -/
private def dirRecord : ConflictRecord :=
  dfClashRecord ⟨dirPath, ⟨"alice"⟩, inDirPath (.lit "x"), ⟨"bob"⟩⟩

/-- The directory has a second file. -/
private def twoChildren : List PatchSet :=
  [adds "alice" [(dirPath, 1)], adds "bob" [(inDirPath (.lit "x"), 2), (inDirPath (.lit "y"), 3)]]

end Samples

end Maw
