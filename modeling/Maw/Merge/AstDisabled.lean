import Maw.Merge.Accounting
import Maw.Merge.AstLadder

/-!
# Resolution of a partition with syntax trees of no language

The two resolutions of a partition differ in the resolution of its shared paths only, and as each
path stands in a partition once, they have the same result exactly if the two agree on every shared
path.

## Main definitions

* `resolvePartitionDetail`, `resolvePartitionWithAstDetail` — the two resolutions, with atoms.

## Main results

* `map_forget_resolvePartitionDetailBy` — what is left without the atoms.
* `resolvePartitionWithAst_eq_iff` — the two resolutions of a partition.
* `not_resolvePartitionWithAst_eq` — a partition for which they differ.
-/

open ExceptRun

namespace Maw

section Partition

abbrev ResolveDetail := Path → List PathEntry → Option Bytes → Except ResolveError DetailedOutcome

structure DetailedResult where
  resolved : List ResolvedChange
  conflicts : List (ConflictRecord × List OverlapAtom)
  deriving DecidableEq

def DetailedResult.forget (r : DetailedResult) : ResolveResult :=
  ⟨r.resolved, r.conflicts.map (·.1)⟩

namespace DetailedOutcome

def path (o : DetailedOutcome) : Path := o.forget.path

def change? : DetailedOutcome → Option ResolvedChange
  | resolved change => some change
  | conflict _ _ => none

def record? : DetailedOutcome → Option (ConflictRecord × List OverlapAtom)
  | resolved _ => none
  | conflict record atoms => some (record, atoms)

/-- An outcome whose record has no atoms. -/
def ofShared : SharedOutcome → DetailedOutcome
  | .resolved change => resolved change
  | .conflict record => conflict record []

theorem forget_ofShared (o : SharedOutcome) : (ofShared o).forget = o := by
  cases o <;> rfl

end DetailedOutcome

/-- The shared paths that take part in no clash. -/
def PartitionResult.openShared (partition : PartitionResult) : List (Path × List PathEntry) :=
  partition.shared.filter fun s => s.1 ∉ partition.dfClashPaths

def resolvePartitionDetailBy (resolveShared : ResolveDetail) (partition : PartitionResult)
    (baseContents : FiniteMap Path Bytes) : Except ResolveError DetailedResult := do
  let unique := (resolveUniques partition baseContents).map DetailedOutcome.ofShared
  let shared ← partition.openShared.mapM fun s => resolveShared s.1 s.2 (baseContents.lookup s.1)
  pure
    { resolved := ((unique ++ shared).filterMap DetailedOutcome.change?).insertionSort
        fun a b => a.path ≤ b.path
      conflicts := ((emitDfClashConflicts partition.dfClashes).map (·, []) ++
        (unique ++ shared).filterMap DetailedOutcome.record?).insertionSort
          fun a b => a.1.path ≤ b.1.path }

def resolvePartitionDetail (tools : DetailTools) (attrs : Option AttrsMatcher) :
    PartitionResult → FiniteMap Path Bytes → Except ResolveError DetailedResult :=
  resolvePartitionDetailBy (resolveSharedPathDetail tools attrs)

def resolvePartitionWithAstDetail (tools : DetailTools) (attrs : Option AttrsMatcher) :
    PartitionResult → FiniteMap Path Bytes → Except ResolveError DetailedResult :=
  resolvePartitionDetailBy (resolveSharedPathWithAstDetail tools attrs)

variable {resolveShared resolveShared' : ResolveDetail} {partition : PartitionResult}
  {baseContents : FiniteMap Path Bytes} {r : DetailedResult}

theorem mapM_map_forget {A : Type} {f : A → Except ResolveError DetailedOutcome} {l : List A} :
    (l.mapM f).map (List.map DetailedOutcome.forget) =
      l.mapM fun a => (f a).map DetailedOutcome.forget := by
  induction l with
  | nil => rfl
  | cons a l ih =>
    rw [List.mapM_cons, List.mapM_cons, ← ih]
    cases f a with
    | error e => rfl
    | ok o => cases l.mapM f <;> rfl

theorem filterMap_change (os : List DetailedOutcome) :
    os.filterMap DetailedOutcome.change? =
      (os.map DetailedOutcome.forget).filterMap SharedOutcome.change? := by
  rw [List.filterMap_map]
  refine List.filterMap_congr fun o _ => ?_
  cases o <;> rfl

theorem map_filterMap_record (os : List DetailedOutcome) :
    (os.filterMap DetailedOutcome.record?).map (·.1) =
      (os.map DetailedOutcome.forget).filterMap SharedOutcome.record? := by
  rw [List.map_filterMap, List.filterMap_map]
  refine List.filterMap_congr fun o _ => ?_
  cases o <;> rfl

theorem map_forget_ofShared (os : List SharedOutcome) :
    (os.map DetailedOutcome.ofShared).map DetailedOutcome.forget = os := by
  rw [List.map_map]
  exact (List.map_congr_left fun o _ => DetailedOutcome.forget_ofShared o).trans (List.map_id os)

/-- Without the atoms it is the resolution of a partition as it is. -/
theorem map_forget_resolvePartitionDetailBy :
    (resolvePartitionDetailBy resolveShared partition baseContents).map DetailedResult.forget =
      resolvePartitionBy
        (fun p es base => (resolveShared p es base).map DetailedOutcome.forget) partition
        baseContents := by
  rw [resolvePartitionDetailBy, resolvePartitionBy, resolveShareds, ← mapM_map_forget]
  change _ = ((partition.openShared.mapM fun s =>
    resolveShared s.1 s.2 (baseContents.lookup s.1)).map (List.map DetailedOutcome.forget) >>= _)
  cases partition.openShared.mapM fun s => resolveShared s.1 s.2 (baseContents.lookup s.1) with
  | error e => rfl
  | ok shared =>
    refine congrArg Except.ok (congrArg₂ ResolveResult.mk ?_ ?_)
    · rw [filterMap_change, List.map_append, map_forget_ofShared]
    · have hsort (l : List (ConflictRecord × List OverlapAtom)) :
          (l.insertionSort fun a b => a.1.path ≤ b.1.path).map (·.1) =
            (l.map (·.1)).insertionSort fun a b => a.path ≤ b.path :=
        List.map_insertionSort _ _ _ _ fun _ _ _ _ => Iff.rfl
      dsimp only
      rw [hsort, List.map_append, map_filterMap_record, List.map_append, map_forget_ofShared,
        List.map_map]
      exact congrArg _ (congrArg (· ++ _) (List.map_id _))

/-- The result has the outcome of a path. -/
def DetailedResult.Holds (r : DetailedResult) : DetailedOutcome → Prop
  | .resolved change => change ∈ r.resolved
  | .conflict record atoms => (record, atoms) ∈ r.conflicts

theorem mem_filterMap_change {os : List DetailedOutcome} {change : ResolvedChange} :
    change ∈ os.filterMap DetailedOutcome.change? ↔ .resolved change ∈ os := by
  rw [List.mem_filterMap]
  constructor
  · rintro ⟨o, ho, hchange⟩
    cases o with
    | resolved change' => exact Option.some.inj hchange ▸ ho
    | conflict record atoms => cases hchange
  · exact fun ho => ⟨_, ho, rfl⟩

theorem mem_filterMap_record {os : List DetailedOutcome}
    {record : ConflictRecord × List OverlapAtom} :
    record ∈ os.filterMap DetailedOutcome.record? ↔ .conflict record.1 record.2 ∈ os := by
  rw [List.mem_filterMap]
  constructor
  · rintro ⟨o, ho, hrecord⟩
    cases o with
    | resolved change => cases hrecord
    | conflict record' atoms =>
      cases hrecord
      exact ho
  · exact fun ho => ⟨_, ho, rfl⟩

/-- The outcomes that a result is made of. -/
theorem exists_outcomes
    (h : resolvePartitionDetailBy resolveShared partition baseContents = .ok r) :
    ∃ shared, (partition.openShared.mapM fun s =>
        resolveShared s.1 s.2 (baseContents.lookup s.1)) = .ok shared ∧
      ∀ o : DetailedOutcome, r.Holds o ↔
        o ∈ (resolveUniques partition baseContents).map DetailedOutcome.ofShared ++ shared ∨
          ∃ record ∈ emitDfClashConflicts partition.dfClashes, o = .conflict record [] := by
  rw [resolvePartitionDetailBy, bind_eq_ok] at h
  obtain ⟨shared, hshared, hr⟩ := h
  rw [pure_eq_ok] at hr
  subst hr
  refine ⟨shared, hshared, fun o => ?_⟩
  cases o with
  | resolved change =>
    rw [DetailedResult.Holds, List.mem_insertionSort, mem_filterMap_change]
    refine (or_iff_left ?_).symm
    rintro ⟨record, -, heq⟩
    cases heq
  | conflict record atoms =>
    rw [DetailedResult.Holds, List.mem_insertionSort, List.mem_append, mem_filterMap_record,
      or_comm, List.mem_map]
    refine or_congr_right (exists_congr fun record' => and_congr_right fun _ => ?_)
    constructor
    · rintro ⟨⟩
      rfl
    · rintro ⟨⟩
      rfl

section Paths

variable (hpath : ∀ p es base o, resolveShared p es base = .ok o → o.path = p)
  (hnodup : (partitionPaths partition).Nodup)
include hpath hnodup

/-- The outcome at a shared path is the one of its changes. -/
theorem resolveShared_of_holds {s : Path × List PathEntry} {o : DetailedOutcome}
    (h : resolvePartitionDetailBy resolveShared partition baseContents = .ok r)
    (hs : s ∈ partition.openShared) (ho : r.Holds o) (heq : o.path = s.1) :
    resolveShared s.1 s.2 (baseContents.lookup s.1) = .ok o := by
  obtain ⟨shared, hshared, hholds⟩ := exists_outcomes h
  obtain ⟨hmem, hopen⟩ := List.mem_filter.mp hs
  rw [partitionPaths, List.nodup_append] at hnodup
  obtain ⟨-, hnodupShared, hdisjoint⟩ := hnodup
  rcases (hholds o).mp ho with hout | ⟨record, hrecord, rfl⟩
  · rcases List.mem_append.mp hout with hunique | hshared'
    · obtain ⟨o', ho', rfl⟩ := List.mem_map.mp hunique
      obtain ⟨u, hu, rfl⟩ := List.mem_map.mp ho'
      rw [DetailedOutcome.path, DetailedOutcome.forget_ofShared,
        (resolveUnique_isOutcome u).path_eq] at heq
      refine absurd heq (hdisjoint _ ?_ _ (List.mem_map_of_mem hmem))
      exact List.mem_map_of_mem (List.mem_of_mem_filter hu)
    · obtain ⟨s', hs', hrun⟩ := exists_of_mem_mapM hshared hshared'
      have hsame : s' = s := List.inj_on_of_nodup_map hnodupShared
        (List.mem_of_mem_filter hs') hmem ((hpath _ _ _ _ hrun).symm.trans heq)
      exact hsame ▸ hrun
  · obtain ⟨clash, hclash, rfl⟩ := mem_emitDfClashConflicts.mp hrecord
    refine absurd ?_ (of_decide_eq_true hopen)
    rw [← heq, PartitionResult.dfClashPaths, List.mem_flatMap]
    exact ⟨clash, PointwiseFold.mem_of_itemAt hclash, List.mem_cons_self⟩

omit hpath hnodup in
theorem exists_holds {s : Path × List PathEntry}
    (h : resolvePartitionDetailBy resolveShared partition baseContents = .ok r)
    (hs : s ∈ partition.openShared) :
    ∃ o, resolveShared s.1 s.2 (baseContents.lookup s.1) = .ok o ∧ r.Holds o := by
  obtain ⟨shared, hshared, hholds⟩ := exists_outcomes h
  obtain ⟨o, ho, hrun⟩ := exists_mem_of_mapM hshared hs
  exact ⟨o, hrun, (hholds o).mpr (.inl (List.mem_append_right _ ho))⟩

/-- Two resolutions of a partition with one result are the same at each shared path. -/
theorem resolveShared_eq_of_results
    (hpath' : ∀ p es base o, resolveShared' p es base = .ok o → o.path = p)
    (h : resolvePartitionDetailBy resolveShared partition baseContents = .ok r)
    (h' : resolvePartitionDetailBy resolveShared' partition baseContents = .ok r)
    {s : Path × List PathEntry} (hs : s ∈ partition.openShared) :
    resolveShared' s.1 s.2 (baseContents.lookup s.1) =
      resolveShared s.1 s.2 (baseContents.lookup s.1) := by
  obtain ⟨o, hrun, ho⟩ := exists_holds h' hs
  rw [hrun, resolveShared_of_holds hpath hnodup h hs ho (hpath' _ _ _ _ hrun)]

end Paths

theorem resolvePartitionDetailBy_congr
    (h : ∀ s ∈ partition.openShared, resolveShared s.1 s.2 (baseContents.lookup s.1) =
      resolveShared' s.1 s.2 (baseContents.lookup s.1)) :
    resolvePartitionDetailBy resolveShared partition baseContents =
      resolvePartitionDetailBy resolveShared' partition baseContents := by
  have hmapM (l : List (Path × List PathEntry)) (hl : ∀ s ∈ l, s ∈ partition.openShared) :
      (l.mapM fun s => resolveShared s.1 s.2 (baseContents.lookup s.1)) =
        l.mapM fun s => resolveShared' s.1 s.2 (baseContents.lookup s.1) := by
    induction l with
    | nil => rfl
    | cons s l ih =>
      rw [List.mapM_cons, List.mapM_cons, h s (hl s List.mem_cons_self),
        ih fun s' hs' => hl s' (List.mem_cons_of_mem _ hs')]
  rw [resolvePartitionDetailBy, resolvePartitionDetailBy, hmapM _ fun _ hs => hs]

variable {tools : DetailTools} {attrs : Option AttrsMatcher}

theorem path_of_resolveSharedPathDetail {p : Path} {es : List PathEntry} {base : Option Bytes}
    {o : DetailedOutcome} (h : resolveSharedPathDetail tools attrs p es base = .ok o) :
    o.path = p := by
  have hrun : resolveSharedPath tools.toMergeTools attrs p es base = .ok o.forget := by
    rw [← map_forget_resolveSharedPathDetail, h]
    rfl
  exact (resolveSharedPath_spec hrun).path_eq

theorem path_of_resolveSharedPathWithAstDetail {p : Path} {es : List PathEntry}
    {base : Option Bytes} {o : DetailedOutcome}
    (h : resolveSharedPathWithAstDetail tools attrs p es base = .ok o) : o.path = p := by
  have hrun : resolveSharedPathWithAst tools.toMergeTools attrs p es base = .ok o.forget := by
    rw [← map_forget_resolveSharedPathWithAstDetail, h]
    rfl
  exact (resolveSharedPathWithAst_spec hrun).path_eq

/-- Where one of the resolutions of a partition returns, and no language is enabled for its paths,
both return the same exactly if they do so for the changes of every shared path. -/
theorem resolvePartitionWithAst_eq_iff (partition : PartitionResult)
    (baseContents : FiniteMap Path Bytes) (hnodup : (partitionPaths partition).Nodup)
    (hast : ∀ s ∈ partition.openShared, tools.astMerge s.1 = none)
    (hreturns : (∃ r, resolvePartitionDetail tools attrs partition baseContents = .ok r) ∨
      ∃ r, resolvePartitionWithAstDetail tools attrs partition baseContents = .ok r) :
    resolvePartitionWithAstDetail tools attrs partition baseContents =
        resolvePartitionDetail tools attrs partition baseContents ↔
      ∀ s ∈ partition.openShared,
        Degenerates tools.toMergeTools attrs s.1 s.2 (baseContents.lookup s.1) := by
  constructor
  · intro heq s hs
    obtain ⟨r, hplain⟩ : ∃ r, resolvePartitionDetail tools attrs partition baseContents = .ok r :=
      hreturns.elim id fun ⟨r, hr⟩ => ⟨r, heq ▸ hr⟩
    rw [hplain] at heq
    rw [← withAst_eq_plain_iff (hast s hs)]
    exact resolveShared_eq_of_results (fun _ _ _ _ => path_of_resolveSharedPathDetail) hnodup
      (fun _ _ _ _ => path_of_resolveSharedPathWithAstDetail) hplain heq hs
  · intro h
    exact resolvePartitionDetailBy_congr fun s hs =>
      (withAst_eq_plain_iff (hast s hs)).mpr (h s hs)

end Partition

section Samples

/-- The tools of the samples; there are no atoms of syntax trees. -/
def sampleDetailTools : DetailTools := { sampleTools with astAtoms := fun _ _ _ => [] }

def deletes (name : String) : PathEntry := ⟨⟨name⟩, .deleted, none, none, none, none⟩

/-- Two workspaces delete a file. -/
def bothDelete : PartitionResult := ⟨[], [(dirPath, [deletes "alice", deletes "bob"])], []⟩

/-- All files are binary. -/
def allBinary : AttrsMatcher := fun _ => some "binary"

/-- A binary file that both workspaces delete is deleted with syntax trees, and in conflict
without. -/
theorem not_resolvePartitionWithAst_eq :
    resolvePartitionWithAstDetail sampleDetailTools (some allBinary) bothDelete ∅ =
        .ok ⟨[.delete dirPath], []⟩ ∧
      resolvePartitionDetail sampleDetailTools (some allBinary) bothDelete ∅ =
        .ok ⟨[], [(conflictRecord dirPath [deletes "alice", deletes "bob"] none .diff3Conflict,
          [])]⟩ := by
  constructor <;> rfl

theorem resolvePartitionWithAst_eq_bothDelete :
    resolvePartitionWithAstDetail sampleDetailTools none bothDelete ∅ =
        resolvePartitionDetail sampleDetailTools none bothDelete ∅ ↔
      ∀ s ∈ bothDelete.openShared,
        Degenerates sampleDetailTools.toMergeTools none s.1 s.2
          ((∅ : FiniteMap Path Bytes).lookup s.1) :=
  resolvePartitionWithAst_eq_iff bothDelete ∅ (by decide) (fun _ _ => rfl)
    (.inl ⟨⟨[.delete dirPath], []⟩, rfl⟩)

end Samples

end Maw
