import Mathlib.Data.Set.Finite.Lemmas
import Maw.Library.KeyedSort
import Maw.Recovery.RecoveryRefs

/-!
# Cleaning up recovery refs

Of the recovery refs of a workspace that has several, those that are superseded by a newer one are
removed; on request also the newest one of a workspace that is gone. The newest is the one with the
greatest suffix, and a workspace is there when it has a directory.

## Main definitions

* `findDanglingSnapshots`, `cleanupDanglingSnapshots` — the refs that are not needed any more, and
  their removal.
* `KeepsLatest` — the ref of a workspace that was created last is still there.

## Main results

* `mem_cleanup_iff` — the refs that are left.
* `cleanup_keepsLatest_iff` — when the refs that were created last are left.
-/

namespace Maw

structure RecoveryRef where
  refName : String
  workspace : String
  timestamp : String
  oid : GitOid
  deriving DecidableEq

inductive DanglingReason
  | workspaceDestroyed
  | supersededByNewer
  deriving DecidableEq, Repr

structure DanglingSnapshot extends RecoveryRef where
  reason : DanglingReason
  deriving DecidableEq

/-- The recovery refs of a listing. -/
def listRecoveryRefs (listing : List (String × GitOid)) : List RecoveryRef :=
  listing.filterMap fun e =>
    (parseRecoveryRefName e.1).map fun parsed => ⟨e.1, parsed.1, parsed.2, e.2⟩

/-- All refs but the newest. -/
def superseded (wsRefs : List RecoveryRef) : List DanglingSnapshot :=
  if wsRefs.length ≤ 1 then [] else wsRefs.dropLast.map (⟨·, .supersededByNewer⟩)

/-- All refs, unless there is one only. -/
def abandoned (wsRefs : List RecoveryRef) : List DanglingSnapshot :=
  if wsRefs.length = 1 then []
  else wsRefs.map fun r => ⟨r, if wsRefs.getLast?.map RecoveryRef.refName = some r.refName then
      .workspaceDestroyed else .supersededByNewer⟩

/-- What a clean-up knows of the repository: its workspaces, and those that a merge has frozen. -/
structure CleanupEnv where
  root : RepoRoot
  mergeWorkspaces : List String

namespace CleanupEnv

variable (env : CleanupEnv)

/-- The refs of one workspace that are not needed any more. -/
def danglingOf (wsName : String) (refs : List RecoveryRef) : List DanglingSnapshot :=
  let wsRefs := refs.insertionSort fun a b => a.timestamp ≤ b.timestamp
  if wsName ∈ env.mergeWorkspaces then []
  else if wsName ∈ env.root.dirs then superseded wsRefs
  else abandoned wsRefs

def findDanglingSnapshots (listing : List (String × GitOid)) : List DanglingSnapshot :=
  let refs := listRecoveryRefs listing
  let byWorkspace := (refs.map RecoveryRef.workspace).dedup
  (byWorkspace.flatMap fun ws => env.danglingOf ws (refs.filter fun r => r.workspace = ws)).insertionSort
    fun a b => a.refName ≤ b.refName

/-- The refs that are left, and those that were removed. -/
def cleanupDanglingSnapshots (refs : RefStore) (listing : List (String × GitOid)) (all : Bool) :
    RefStore × List DanglingSnapshot :=
  let dangling := env.findDanglingSnapshots listing
  let toRemove := if all then dangling else dangling.filter (·.reason = .supersededByNewer)
  (toRemove.foldl (fun refs d => refs.erase d.refName) refs, toRemove)

end CleanupEnv

/-- The recovery refs are pins. -/
def Written (refs : RefStore) : Prop :=
  ∀ refName ∈ refs, recoveryPrefix.toList <+: refName.toList → ∃ p : Pin, refName = p.refName

/-- The pin is one of the workspace's and there is a ref for it. -/
def HasPin (refs : RefStore) (ws : Oplog.NamedWorkspace) (p : Pin) : Prop :=
  p.workspace = ws ∧ p.refName ∈ refs

/-- No pin of the workspace was created after this one. -/
def IsLatest (refs : RefStore) (ws : Oplog.NamedWorkspace) (p : Pin) : Prop :=
  HasPin refs ws p ∧ ∀ q, HasPin refs ws q → q.time ≤ p.time

/-- If the workspace had a ref, the one that was created last is still there. -/
def KeepsLatest (refs refs' : RefStore) (ws : Oplog.NamedWorkspace) : Prop :=
  (∃ p, HasPin refs ws p) →
    ∃ p, IsLatest refs ws p ∧ refs'.lookup p.refName = refs.lookup p.refName

/-- The workspace has no two refs. -/
def IsSingle (refs : RefStore) (ws : Oplog.NamedWorkspace) : Prop :=
  ∀ p q, HasPin refs ws p → HasPin refs ws q → p = q

/-! ### What is removed -/

/-- The group has a ref with a later time. -/
def Newer (group : List RecoveryRef) (r : RecoveryRef) : Prop :=
  ∃ s ∈ group, r.timestamp < s.timestamp

theorem newer_iff_of_perm {group group' : List RecoveryRef} (h : group.Perm group')
    {r : RecoveryRef} : Newer group r ↔ Newer group' r := by
  rw [Newer, Newer]
  simp only [h.mem_iff]

section Group

variable {wsRefs : List RecoveryRef} {d : DanglingSnapshot}

theorem mem_superseded_iff
    (hsorted : wsRefs.Pairwise fun a b => a.timestamp < b.timestamp) :
    d ∈ superseded wsRefs ↔ d.toRecoveryRef ∈ wsRefs ∧ Newer wsRefs d.toRecoveryRef ∧
      d.reason = .supersededByNewer := by
  have hlast : d.toRecoveryRef ∈ wsRefs.dropLast ↔
      d.toRecoveryRef ∈ wsRefs ∧ Newer wsRefs d.toRecoveryRef :=
    KeyedSort.mem_dropLast_iff hsorted
  have hone : wsRefs.length ≤ 1 → wsRefs.dropLast = [] := fun h =>
    List.length_eq_zero_iff.mp (by rw [List.length_dropLast]; omega)
  rw [superseded, ← and_assoc, ← hlast]
  split_ifs with hlength
  · simp [hone hlength]
  · constructor
    · intro h
      obtain ⟨r, hr, rfl⟩ := List.mem_map.mp h
      exact ⟨hr, rfl⟩
    · rintro ⟨hr, hreason⟩
      exact List.mem_map.mpr ⟨_, hr, by rw [← hreason]⟩

theorem mem_abandoned_iff (hsorted : wsRefs.Pairwise fun a b => a.timestamp < b.timestamp)
    (hname : (wsRefs.map RecoveryRef.refName).Nodup) :
    d ∈ abandoned wsRefs ↔ wsRefs.length ≠ 1 ∧ d.toRecoveryRef ∈ wsRefs ∧
      (d.reason = .supersededByNewer ↔ Newer wsRefs d.toRecoveryRef) := by
  have hlast (r : RecoveryRef) (hr : r ∈ wsRefs) :
      wsRefs.getLast?.map RecoveryRef.refName = some r.refName ↔ ¬ Newer wsRefs r := by
    have hget : wsRefs.getLast? = some r ↔ r ∈ wsRefs ∧ ¬ Newer wsRefs r := by
      rw [KeyedSort.getLast?_eq_some_iff_of_pairwise hsorted, Newer]
      push Not
      exact Iff.rfl
    rw [Option.map_eq_some_iff]
    constructor
    · rintro ⟨s, hs, heq⟩
      obtain rfl := List.inj_on_of_nodup_map hname (List.mem_of_getLast? hs) hr heq
      exact (hget.mp hs).2
    · intro h
      exact ⟨r, hget.mpr ⟨hr, h⟩, rfl⟩
  rw [abandoned]
  split_ifs with hlength
  · simp [hlength]
  · simp only [ne_eq, hlength, not_false_eq_true, true_and]
    constructor
    · intro h
      obtain ⟨r, hr, rfl⟩ := List.mem_map.mp h
      refine ⟨hr, ?_⟩
      by_cases hnewer : Newer wsRefs r
      · simp [hlast r hr, hnewer]
      · simp [hlast r hr, hnewer]
    · rintro ⟨hr, hreason⟩
      refine List.mem_map.mpr ⟨_, hr, ?_⟩
      obtain ⟨r, reason⟩ := d
      by_cases hnewer : Newer wsRefs r
      · obtain rfl : reason = .supersededByNewer := hreason.mpr hnewer
        simp [hlast r hr, hnewer]
      · cases reason with
        | workspaceDestroyed => simp [hlast r hr, hnewer]
        | supersededByNewer => exact absurd (hreason.mp rfl) hnewer

end Group

namespace CleanupEnv

variable {env : CleanupEnv} {ws : String} {group : List RecoveryRef} {r : RecoveryRef}
  {d : DanglingSnapshot}

theorem mem_of_mem_danglingOf (h : d ∈ env.danglingOf ws group) : d.toRecoveryRef ∈ group := by
  have hmem (r : RecoveryRef) : r ∈ group.insertionSort (fun a b => a.timestamp ≤ b.timestamp) ↔
      r ∈ group := (List.perm_insertionSort _ _).mem_iff
  simp only [danglingOf] at h
  split_ifs at h with hmerge hdirs
  · exact absurd h List.not_mem_nil
  · rw [superseded] at h
    split_ifs at h
    · exact absurd h List.not_mem_nil
    · obtain ⟨r, hr, rfl⟩ := List.mem_map.mp h
      exact (hmem r).mp (List.mem_of_mem_dropLast hr)
  · rw [abandoned] at h
    split_ifs at h
    · exact absurd h List.not_mem_nil
    · obtain ⟨r, hr, rfl⟩ := List.mem_map.mp h
      exact (hmem r).mp hr

theorem mem_danglingOf_iff (htime : (group.map RecoveryRef.timestamp).Nodup)
    (hname : (group.map RecoveryRef.refName).Nodup) :
    d ∈ env.danglingOf ws group ↔ ws ∉ env.mergeWorkspaces ∧ d.toRecoveryRef ∈ group ∧
      if ws ∈ env.root.dirs then Newer group d.toRecoveryRef ∧ d.reason = .supersededByNewer
      else group.length ≠ 1 ∧ (d.reason = .supersededByNewer ↔ Newer group d.toRecoveryRef) := by
  have hperm := List.perm_insertionSort (fun a b : RecoveryRef => a.timestamp ≤ b.timestamp) group
  have hsorted := KeyedSort.pairwise_lt_insertionSort htime
  have hname' := (hperm.map RecoveryRef.refName).nodup_iff.mpr hname
  rw [danglingOf]
  by_cases hmerge : ws ∈ env.mergeWorkspaces
  · simp [hmerge]
  by_cases hdirs : ws ∈ env.root.dirs
  · simp only [hmerge, hdirs, if_true, if_false, not_false_eq_true, true_and]
    rw [mem_superseded_iff hsorted, hperm.mem_iff, newer_iff_of_perm hperm]
  · simp only [hmerge, hdirs, if_false, not_false_eq_true, true_and]
    rw [mem_abandoned_iff hsorted hname', hperm.mem_iff, newer_iff_of_perm hperm, hperm.length_eq,
      and_left_comm]

end CleanupEnv

/-! ### What is left -/

section Listing

variable {refs : RefStore} {listing : List (String × GitOid)} {r : RecoveryRef}
  {ws : Oplog.NamedWorkspace}

/-- The recovery refs of a workspace. -/
def groupOf (listing : List (String × GitOid)) (ws : String) : List RecoveryRef :=
  (listRecoveryRefs listing).filter fun r => r.workspace = ws

/-- The listed refs are the pins. -/
theorem mem_listRecoveryRefs_iff (hrefs : Written refs) (hlisting : IsRecoveryListing refs listing) :
    r ∈ listRecoveryRefs listing ↔ ∃ p : Pin, refs.lookup p.refName = some r.oid ∧
      r.refName = p.refName ∧ r.workspace = p.workspace.asStr ∧
        r.timestamp = String.ofList p.suffix := by
  rw [listRecoveryRefs, List.mem_filterMap]
  constructor
  · rintro ⟨e, he, hr⟩
    obtain ⟨hlookup, hbegins⟩ := (hlisting.mem_iff e).mp he
    obtain ⟨p, hp⟩ := hrefs e.1 (FiniteMap.mem_of_lookup hlookup) hbegins
    rw [hp, parseRecoveryRefName_refName, Option.map_some, Option.some_inj] at hr
    subst hr
    exact ⟨p, hp ▸ hlookup, rfl, rfl, rfl⟩
  · rintro ⟨p, hlookup, hname, hws, htime⟩
    refine ⟨(p.refName, r.oid), (hlisting.mem_iff _).mpr ⟨hlookup, ?_⟩, ?_⟩
    · rw [Pin.refName, String.toList_ofList]
      exact List.prefix_append _ _
    · obtain ⟨refName, workspace, timestamp, oid⟩ := r
      simp only at hname hws htime
      rw [parseRecoveryRefName_refName, Option.map_some, hname, hws, htime]

theorem mem_groupOf_iff (hrefs : Written refs) (hlisting : IsRecoveryListing refs listing) :
    r ∈ groupOf listing ws.asStr ↔ r.workspace = ws.asStr ∧ ∃ p : Pin, p.workspace = ws ∧
      refs.lookup p.refName = some r.oid ∧ r.refName = p.refName ∧
        r.timestamp = String.ofList p.suffix := by
  rw [groupOf, List.mem_filter, mem_listRecoveryRefs_iff hrefs hlisting, decide_eq_true_iff]
  constructor
  · rintro ⟨⟨p, hlookup, hname, hws, htime⟩, hr⟩
    refine ⟨hr, p, ?_, hlookup, hname, htime⟩
    rw [← Option.some_inj, ← Oplog.NamedWorkspace.new_asStr, ← hws, hr,
      Oplog.NamedWorkspace.new_asStr]
  · rintro ⟨hr, p, rfl, hlookup, hname, htime⟩
    exact ⟨⟨p, hlookup, hname, hr, htime⟩, hr⟩

theorem nodup_refNames (hlisting : IsRecoveryListing refs listing) (ws : String) :
    ((groupOf listing ws).map RecoveryRef.refName).Nodup := by
  have hsublist (l : List (String × GitOid)) :
      ((listRecoveryRefs l).map RecoveryRef.refName).Sublist (l.map Prod.fst) := by
    induction l with
    | nil => exact .slnil
    | cons e l ih =>
      rw [listRecoveryRefs, List.filterMap_cons]
      cases parseRecoveryRefName e.1 with
      | none => exact ih.cons _
      | some parsed => exact ih.cons_cons _
  refine (hlisting.nodup.sublist (hsublist listing)).sublist ?_
  exact List.filter_sublist.map _

theorem nodup_timestamps (hrefs : Written refs) (hlisting : IsRecoveryListing refs listing) :
    ((groupOf listing ws.asStr).map RecoveryRef.timestamp).Nodup := by
  refine List.Nodup.map_on (fun r hr s hs heq => ?_) (nodup_refNames hlisting ws.asStr).of_map
  obtain ⟨-, p, hp, -, hname, htime⟩ := (mem_groupOf_iff hrefs hlisting).mp hr
  obtain ⟨-, q, hq, -, hname', htime'⟩ := (mem_groupOf_iff hrefs hlisting).mp hs
  rw [htime, htime'] at heq
  obtain ⟨hkind, hstamp⟩ := Pin.suffix_inj.mp (String.ofList_injective heq)
  have hpq : p = q := by
    cases p
    cases q
    simp_all
  have hnames : r.refName = s.refName := by rw [hname, hname', hpq]
  exact List.inj_on_of_nodup_map (nodup_refNames hlisting ws.asStr) hr hs hnames

/-- A pin of a workspace is one of its recovery refs. -/
theorem exists_mem_groupOf (hrefs : Written refs) (hlisting : IsRecoveryListing refs listing)
    {p : Pin} (hp : HasPin refs ws p) : ∃ r ∈ groupOf listing ws.asStr,
      r.refName = p.refName ∧ r.timestamp = String.ofList p.suffix := by
  obtain ⟨oid, hoid⟩ := Finmap.mem_iff.mp hp.2
  refine ⟨⟨p.refName, ws.asStr, String.ofList p.suffix, oid⟩, ?_, rfl, rfl⟩
  exact (mem_groupOf_iff hrefs hlisting).mpr ⟨rfl, p, hp.1, hoid, rfl, rfl⟩

/-- A recovery ref of a workspace is a pin of it. -/
theorem exists_pin (hrefs : Written refs) (hlisting : IsRecoveryListing refs listing)
    (hr : r ∈ groupOf listing ws.asStr) : ∃ p, HasPin refs ws p ∧
      r.refName = p.refName ∧ r.timestamp = String.ofList p.suffix := by
  obtain ⟨-, p, hp, hlookup, hname, htime⟩ := (mem_groupOf_iff hrefs hlisting).mp hr
  exact ⟨p, ⟨hp, FiniteMap.mem_of_lookup hlookup⟩, hname, htime⟩

theorem length_groupOf_iff (hrefs : Written refs) (hlisting : IsRecoveryListing refs listing)
    {p : Pin} (hp : HasPin refs ws p) :
    (groupOf listing ws.asStr).length = 1 ↔ IsSingle refs ws := by
  obtain ⟨r, hr, hname, -⟩ := exists_mem_groupOf hrefs hlisting hp
  constructor
  · intro hlength q q' hq hq'
    obtain ⟨s, hs⟩ := List.length_eq_one_iff.mp hlength
    obtain ⟨a, ha, hqa, -⟩ := exists_mem_groupOf hrefs hlisting hq
    obtain ⟨b, hb, hqb, -⟩ := exists_mem_groupOf hrefs hlisting hq'
    rw [hs, List.mem_singleton] at ha hb
    exact Pin.refName_injective (by rw [← hqa, ← hqb, ha, hb])
  · intro hsingle
    have hall (s : RecoveryRef) (hs : s ∈ groupOf listing ws.asStr) : s.refName = p.refName := by
      obtain ⟨q, hq, hsq, -⟩ := exists_pin hrefs hlisting hs
      rw [hsq, hsingle q p hq hp]
    have hconst : (groupOf listing ws.asStr).map RecoveryRef.refName =
        List.replicate (groupOf listing ws.asStr).length p.refName :=
      List.map_eq_replicate_iff.mpr hall
    have hnodup := nodup_refNames hlisting ws.asStr
    rw [hconst, List.nodup_replicate] at hnodup
    have hpos := List.length_pos_of_mem hr
    omega

theorem newer_groupOf_iff (hrefs : Written refs) (hlisting : IsRecoveryListing refs listing)
    {p : Pin} (htime : r.timestamp = String.ofList p.suffix) :
    Newer (groupOf listing ws.asStr) r ↔ ∃ q, HasPin refs ws q ∧ p.suffix < q.suffix := by
  rw [Newer]
  constructor
  · rintro ⟨s, hs, hlt⟩
    obtain ⟨q, hq, -, hqs⟩ := exists_pin hrefs hlisting hs
    refine ⟨q, hq, ?_⟩
    simpa only [htime, hqs, String.lt_iff_toList_lt, String.toList_ofList] using hlt
  · rintro ⟨q, hq, hlt⟩
    obtain ⟨s, hs, -, hqs⟩ := exists_mem_groupOf hrefs hlisting hq
    refine ⟨s, hs, ?_⟩
    simpa only [htime, hqs, String.lt_iff_toList_lt, String.toList_ofList] using hlt

end Listing

namespace CleanupEnv

variable {env : CleanupEnv} {refs : RefStore} {listing : List (String × GitOid)}
  {ws : Oplog.NamedWorkspace} {all : Bool} {d : DanglingSnapshot} {p : Pin}

theorem lookup_foldl_erase (removed : List DanglingSnapshot) (name : String) :
    (removed.foldl (fun refs d => refs.erase d.refName) refs).lookup name =
      if name ∈ removed.map (·.refName) then none else refs.lookup name := by
  induction removed generalizing refs with
  | nil => simp
  | cons d removed ih =>
    rw [List.foldl_cons, ih, FiniteMap.lookup_erase, List.map_cons]
    by_cases hname : name = d.refName
    · simp [hname]
    · simp [hname]

theorem mem_findDanglingSnapshots : d ∈ env.findDanglingSnapshots listing ↔
    ∃ ws, d ∈ env.danglingOf ws (groupOf listing ws) := by
  rw [findDanglingSnapshots, (List.perm_insertionSort _ _).mem_iff, List.mem_flatMap]
  constructor
  · rintro ⟨ws, -, hd⟩
    exact ⟨ws, hd⟩
  · rintro ⟨ws, hd⟩
    have hmem := List.mem_filter.mp (mem_of_mem_danglingOf hd)
    refine ⟨ws, List.mem_dedup.mpr (List.mem_map.mpr ⟨_, hmem.1, ?_⟩), hd⟩
    simpa using hmem.2

theorem mem_cleanup : d ∈ (env.cleanupDanglingSnapshots refs listing all).2 ↔
    d ∈ env.findDanglingSnapshots listing ∧ (all = true ∨ d.reason = .supersededByNewer) := by
  rw [cleanupDanglingSnapshots]
  cases all <;> simp

theorem not_isSingle_of_lt {q : Pin} (hp : HasPin refs ws p) (hq : HasPin refs ws q)
    (h : p.suffix < q.suffix) : ¬ IsSingle refs ws := by
  intro hsingle
  rw [hsingle p q hp hq] at h
  exact absurd h (lt_irrefl _)

/-- The pins of a workspace that are removed. -/
theorem removed_iff (hrefs : Written refs) (hlisting : IsRecoveryListing refs listing)
    (hp : HasPin refs ws p) :
    p.refName ∈ (env.cleanupDanglingSnapshots refs listing all).2.map (·.refName) ↔
      ws.asStr ∉ env.mergeWorkspaces ∧
        if all = true ∧ ws.asStr ∉ env.root.dirs then ¬ IsSingle refs ws
        else ∃ q, HasPin refs ws q ∧ p.suffix < q.suffix := by
  have hnames := nodup_refNames hlisting ws.asStr
  obtain ⟨r, hr, hname, htime⟩ := exists_mem_groupOf hrefs hlisting hp
  have hdangling (reason : DanglingReason) :=
    @mem_danglingOf_iff env ws.asStr _ ⟨r, reason⟩ (nodup_timestamps hrefs hlisting) hnames
  simp only [hr, true_and, newer_groupOf_iff hrefs hlisting htime, ne_eq,
    length_groupOf_iff hrefs hlisting hp] at hdangling
  rw [List.mem_map]
  constructor
  · rintro ⟨d, hd, hdname⟩
    obtain ⟨hd, hreason⟩ := mem_cleanup.mp hd
    obtain ⟨ws', hd⟩ := mem_findDanglingSnapshots.mp hd
    have hgroup := List.mem_filter.mp (mem_of_mem_danglingOf hd)
    -- The item is the one of the pin.
    obtain ⟨q, -, hqname, hqws, -⟩ := (mem_listRecoveryRefs_iff hrefs hlisting).mp hgroup.1
    obtain rfl : q = p := Pin.refName_injective (by rw [← hqname, hdname])
    obtain rfl : ws' = ws.asStr := by
      rw [← hp.1, ← hqws]
      exact (of_decide_eq_true hgroup.2).symm
    obtain rfl : d.toRecoveryRef = r :=
      List.inj_on_of_nodup_map hnames (mem_of_mem_danglingOf hd) hr (by rw [hname, ← hdname])
    obtain ⟨hmerge, hcase⟩ := (hdangling d.reason).mp hd
    refine ⟨hmerge, ?_⟩
    by_cases hdirs : ws.asStr ∈ env.root.dirs
    · simp only [hdirs, if_true] at hcase
      simpa [hdirs] using hcase.1
    · simp only [hdirs, if_false] at hcase
      split_ifs with hall
      · exact hcase.1
      · rcases hreason with rfl | hreason
        · exact absurd ⟨rfl, hdirs⟩ hall
        · exact hcase.2.mp hreason
  · rintro ⟨hmerge, hcase⟩
    obtain ⟨reason, hreason⟩ : ∃ reason : DanglingReason, reason = .supersededByNewer ↔
        ∃ q, HasPin refs ws q ∧ p.suffix < q.suffix := by
      by_cases hnewer : ∃ q, HasPin refs ws q ∧ p.suffix < q.suffix
      · exact ⟨.supersededByNewer, by simp [hnewer]⟩
      · exact ⟨.workspaceDestroyed, by simp [hnewer]⟩
    refine ⟨⟨r, reason⟩, mem_cleanup.mpr ⟨mem_findDanglingSnapshots.mpr ⟨ws.asStr,
      (hdangling reason).mpr ⟨hmerge, ?_⟩⟩, ?_⟩, hname⟩
    · by_cases hdirs : ws.asStr ∈ env.root.dirs
      · rw [if_neg fun hall => hall.2 hdirs] at hcase
        rw [if_pos hdirs]
        exact ⟨hcase, hreason.mpr hcase⟩
      · rw [if_neg hdirs]
        refine ⟨?_, hreason⟩
        split_ifs at hcase with hall
        · exact hcase
        · obtain ⟨q, hq, hlt⟩ := hcase
          exact not_isSingle_of_lt hp hq hlt
    · cases all with
      | true => exact .inl rfl
      | false => exact .inr (hreason.mpr (by simpa using hcase))

theorem cleanup_fst : (env.cleanupDanglingSnapshots refs listing all).1 =
    (env.cleanupDanglingSnapshots refs listing all).2.foldl
      (fun refs d => refs.erase d.refName) refs := rfl

/-- The pins of a workspace that are left, with what they pin. -/
theorem lookup_cleanup (hrefs : Written refs) (hlisting : IsRecoveryListing refs listing)
    (hp : HasPin refs ws p) :
    (env.cleanupDanglingSnapshots refs listing all).1.lookup p.refName = refs.lookup p.refName ↔
      ws.asStr ∈ env.mergeWorkspaces ∨
        if all = true ∧ ws.asStr ∉ env.root.dirs then IsSingle refs ws
        else ∀ q, HasPin refs ws q → ¬ p.suffix < q.suffix := by
  have hremoved := @removed_iff env refs listing ws all p hrefs hlisting hp
  obtain ⟨oid, hoid⟩ := Finmap.mem_iff.mp hp.2
  have hleft : (env.cleanupDanglingSnapshots refs listing all).1.lookup p.refName =
      refs.lookup p.refName ↔
        p.refName ∉ (env.cleanupDanglingSnapshots refs listing all).2.map (·.refName) := by
    rw [cleanup_fst, lookup_foldl_erase, hoid]
    split_ifs with hin
    · simpa using hin
    · simpa using hin
  rw [hleft, hremoved, not_and_or, not_not]
  split_ifs <;> simp

end CleanupEnv

/-! ### The refs that were created last -/

/-- Of the pins that were created last one has a mark that no other pin of the workspace comes
after. -/
def LastSortsLast (refs : RefStore) (ws : Oplog.NamedWorkspace) : Prop :=
  ∃ p, IsLatest refs ws p ∧ ∀ q, HasPin refs ws q → q.kind.rank ≤ p.kind.rank

/-- What a clean-up is to leave. -/
def CleansSafely (env : CleanupEnv) (refs : RefStore) (listing : List (String × GitOid)) : Prop :=
  (∀ ws, KeepsLatest refs (env.cleanupDanglingSnapshots refs listing false).1 ws) ∧
    (∀ ws : Oplog.NamedWorkspace, env.root.Exists ws.asStr ∨ IsSingle refs ws →
      KeepsLatest refs (env.cleanupDanglingSnapshots refs listing true).1 ws) ∧
    ∀ ws : Oplog.NamedWorkspace, ws.asStr ∈ env.mergeWorkspaces → ∀ all p, HasPin refs ws p →
      (env.cleanupDanglingSnapshots refs listing all).1.lookup p.refName = refs.lookup p.refName

section Latest

variable {env : CleanupEnv} {refs : RefStore} {listing : List (String × GitOid)}
  {ws : Oplog.NamedWorkspace} {p : Pin}

theorem finite_pins (refs : RefStore) (ws : Oplog.NamedWorkspace) :
    {p | HasPin refs ws p}.Finite := by
  refine Set.Finite.subset (Set.Finite.preimage Pin.refName_injective.injOn
    (refs.keys.finite_toSet)) fun p hp => ?_
  exact Finmap.mem_keys.mpr hp.2

/-- A workspace with a ref has one that was created last. -/
theorem exists_isLatest (hp : HasPin refs ws p) : ∃ q, IsLatest refs ws q := by
  obtain ⟨q, hq, hmax⟩ := Set.exists_max_image _ Pin.time (finite_pins refs ws) ⟨p, hp⟩
  exact ⟨q, hq, hmax⟩

/-- The pin with the greatest suffix was created last exactly when its mark comes last. -/
theorem exists_latest_greatest_iff :
    (∃ p, IsLatest refs ws p ∧ ∀ q, HasPin refs ws q → ¬ p.suffix < q.suffix) ↔
      LastSortsLast refs ws := by
  refine exists_congr fun p => and_congr_right fun hlatest => forall₂_congr fun q hq => ?_
  rw [Pin.suffix_lt_iff, not_or, not_lt]
  refine ⟨And.left, fun hrank => ⟨hrank, fun ⟨_, htime⟩ => ?_⟩⟩
  exact absurd (hlatest.2 q hq) (not_le_of_gt htime)

/-- A clean-up that removes what has a newer ref leaves the ref that was created last exactly when
its mark comes last. -/
theorem keepsLatest_iff {refs' : RefStore} (h : ∀ p, HasPin refs ws p →
      (refs'.lookup p.refName = refs.lookup p.refName ↔
        ∀ q, HasPin refs ws q → ¬ p.suffix < q.suffix)) :
    KeepsLatest refs refs' ws ↔ (∃ p, HasPin refs ws p) → LastSortsLast refs ws := by
  refine forall_congr' fun _ => ?_
  rw [← exists_latest_greatest_iff]
  exact exists_congr fun p => and_congr_right fun hlatest => h p hlatest.1

/-- A clean-up that removes a ref only of a workspace with others leaves the last one exactly when
there is no other. -/
theorem keepsLatest_iff_isSingle {refs' : RefStore} (h : ∀ p, HasPin refs ws p →
      (refs'.lookup p.refName = refs.lookup p.refName ↔ IsSingle refs ws)) :
    KeepsLatest refs refs' ws ↔ IsSingle refs ws := by
  constructor
  · intro hkeeps p q hp hq
    obtain ⟨l, hlatest, hl⟩ := hkeeps ⟨p, hp⟩
    exact (h l hlatest.1).mp hl p q hp hq
  · rintro hsingle ⟨p, hp⟩
    obtain ⟨l, hlatest⟩ := exists_isLatest hp
    exact ⟨l, hlatest, (h l hlatest.1).mpr hsingle⟩

theorem keepsLatest_of_all {refs' : RefStore}
    (h : ∀ p, HasPin refs ws p → refs'.lookup p.refName = refs.lookup p.refName) :
    KeepsLatest refs refs' ws := by
  rintro ⟨p, hp⟩
  obtain ⟨l, hlatest⟩ := exists_isLatest hp
  exact ⟨l, hlatest, h l hlatest.1⟩

end Latest

/-- The marks of the pins come in the order of their creation, and a default workspace that is the
root of its repository has one pin. -/
def CreatedInOrder (env : CleanupEnv) (refs : RefStore) : Prop :=
  ∀ ws : Oplog.NamedWorkspace, ws.asStr ∉ env.mergeWorkspaces →
    ((∃ p, HasPin refs ws p) → LastSortsLast refs ws) ∧
      (env.root.flavor = .consolidatedMawDir → ws.asStr = defaultWs →
        ws.asStr ∉ env.root.dirs → IsSingle refs ws)

/-- A clean-up leaves the refs that were created last exactly when the marks are in the order of
creation and the default workspace, if it has no directory, has one pin. -/
theorem cleansSafely_iff {env : CleanupEnv} {refs : RefStore} {listing : List (String × GitOid)}
    (hrefs : Written refs) (hlisting : IsRecoveryListing refs listing) :
    CleansSafely env refs listing ↔ CreatedInOrder env refs := by
  have hmerging (ws : Oplog.NamedWorkspace) (hmerge : ws.asStr ∈ env.mergeWorkspaces) (all : Bool)
      (p : Pin) (hp : HasPin refs ws p) :
      (env.cleanupDanglingSnapshots refs listing all).1.lookup p.refName = refs.lookup p.refName :=
    (env.lookup_cleanup hrefs hlisting hp).mpr (.inl hmerge)
  have hfalse (ws : Oplog.NamedWorkspace) (hmerge : ws.asStr ∉ env.mergeWorkspaces) :
      KeepsLatest refs (env.cleanupDanglingSnapshots refs listing false).1 ws ↔
        (∃ p, HasPin refs ws p) → LastSortsLast refs ws :=
    keepsLatest_iff fun p hp => by simp [env.lookup_cleanup hrefs hlisting hp, hmerge]
  have hgone (ws : Oplog.NamedWorkspace) (hmerge : ws.asStr ∉ env.mergeWorkspaces)
      (hdirs : ws.asStr ∉ env.root.dirs) :
      KeepsLatest refs (env.cleanupDanglingSnapshots refs listing true).1 ws ↔ IsSingle refs ws :=
    keepsLatest_iff_isSingle fun p hp => by
      simp [env.lookup_cleanup hrefs hlisting hp, hmerge, hdirs]
  constructor
  · rintro ⟨hkeep, hall, -⟩ ws hmerge
    refine ⟨(hfalse ws hmerge).mp (hkeep ws), fun hflavor hdefault hdirs => ?_⟩
    exact (hgone ws hmerge hdirs).mp (hall ws (.inl (.inr ⟨hflavor, hdefault⟩)))
  · intro horder
    refine ⟨fun ws => ?_, fun ws hws => ?_, hmerging⟩
    · by_cases hmerge : ws.asStr ∈ env.mergeWorkspaces
      · exact keepsLatest_of_all (hmerging ws hmerge false)
      · exact (hfalse ws hmerge).mpr (horder ws hmerge).1
    · by_cases hmerge : ws.asStr ∈ env.mergeWorkspaces
      · exact keepsLatest_of_all (hmerging ws hmerge true)
      by_cases hdirs : ws.asStr ∈ env.root.dirs
      · refine (keepsLatest_iff fun p hp => ?_).mpr (horder ws hmerge).1
        simp [env.lookup_cleanup hrefs hlisting hp, hmerge, hdirs]
      · refine (hgone ws hmerge hdirs).mpr ?_
        rcases hws with (hdir | ⟨hflavor, hdefault⟩) | hsingle
        · exact absurd hdir hdirs
        · exact (horder ws hmerge).2 hflavor hdefault hdirs
        · exact hsingle

/-! ### A pin before a clean -/

/-- The repository has the one workspace. -/
def sampleCleanup : CleanupEnv := ⟨⟨.v2WsRoot, ["default", "alice"]⟩, []⟩

section Pinned

variable {refs : RefStore} {p : Pin} {oid : GitOid}

theorem Written.insert (h : Written refs) : Written (refs.insert p.refName oid) := by
  intro refName hname hbegins
  rcases Finmap.mem_insert.mp hname with rfl | hname
  · exact ⟨p, rfl⟩
  · exact h refName hname hbegins

theorem hasPin_insert {ws : Oplog.NamedWorkspace} {q : Pin} :
    HasPin (refs.insert p.refName oid) ws q ↔ q.workspace = ws ∧ q = p ∨ HasPin refs ws q := by
  rw [HasPin, HasPin, Finmap.mem_insert, Pin.refName_injective.eq_iff, and_or_left]

end Pinned

/-- The refs after a pin before a clean. -/
def cleanedRefs : RefStore := Finmap.insert (samplePin .clean 1).refName ⟨1⟩ ∅

/-- The refs after another pin. -/
def sampleRefs : RefStore := cleanedRefs.insert (samplePin .plain 3).refName ⟨2⟩

def cleanedListing : List (String × GitOid) := [((samplePin .clean 1).refName, ⟨1⟩)]

theorem cleanedRefs_written : Written cleanedRefs :=
  Written.insert fun _ h => absurd h Finmap.notMem_empty

theorem cleanedRefs_listing : IsRecoveryListing cleanedRefs cleanedListing :=
  IsRecoveryListing.insert ⟨List.nodup_nil, by simp⟩ Finmap.notMem_empty

/-- A clean-up after a clean leaves the pin. -/
theorem cleansSafely_cleaned :
    Written cleanedRefs ∧ IsRecoveryListing cleanedRefs cleanedListing ∧
      (CleansSafely sampleCleanup cleanedRefs cleanedListing ↔
        CreatedInOrder sampleCleanup cleanedRefs) :=
  ⟨cleanedRefs_written, cleanedRefs_listing,
    cleansSafely_iff cleanedRefs_written cleanedRefs_listing⟩

/-- A pin that is taken after a pin before a clean is removed as the older one. -/
theorem cleanup_removes_latest :
    ¬ ∀ (env : CleanupEnv) (refs : RefStore) (listing : List (String × GitOid)),
      Written refs → IsRecoveryListing refs listing → CleansSafely env refs listing := by
  intro h
  have hnew : (samplePin .plain 3).refName ∉ cleanedRefs := by
    intro hin
    rcases Finmap.mem_insert.mp hin with heq | hin
    · exact absurd (congrArg Pin.kind (Pin.refName_injective heq)) (by decide)
    · exact absurd hin Finmap.notMem_empty
  have hwritten : Written sampleRefs := cleanedRefs_written.insert
  have hlisting : IsRecoveryListing sampleRefs _ := cleanedRefs_listing.insert hnew
  have hpins {ws : Oplog.NamedWorkspace} {q : Pin} (hq : HasPin sampleRefs ws q) :
      q = samplePin .plain 3 ∨ q = samplePin .clean 1 := by
    rcases hasPin_insert.mp hq with ⟨-, rfl⟩ | hq
    · exact .inl rfl
    · rcases hasPin_insert.mp hq with ⟨-, rfl⟩ | hq
      · exact .inr rfl
      · exact absurd hq.2 Finmap.notMem_empty
  have hplain : HasPin sampleRefs (samplePin .plain 3).workspace (samplePin .plain 3) :=
    hasPin_insert.mpr (.inl ⟨rfl, rfl⟩)
  have hclean : HasPin sampleRefs (samplePin .plain 3).workspace (samplePin .clean 1) :=
    hasPin_insert.mpr (.inr (hasPin_insert.mpr (.inl ⟨rfl, rfl⟩)))
  obtain ⟨p, hlatest, hleft⟩ :=
    (h sampleCleanup sampleRefs _ hwritten hlisting).1 (samplePin .plain 3).workspace ⟨_, hplain⟩
  rcases hpins hlatest.1 with rfl | rfl
  · rw [sampleCleanup.lookup_cleanup hwritten hlisting hplain] at hleft
    rcases hleft with hmerge | hgreatest
    · exact absurd hmerge List.not_mem_nil
    · rw [if_neg (by simp)] at hgreatest
      exact hgreatest _ hclean (Pin.suffix_lt_of_rank (by decide))
  · exact absurd (hlatest.2 _ hplain) (by decide)

end Maw
