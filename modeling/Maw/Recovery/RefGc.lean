import Maw.Merge.MergeRun
import Maw.Oplog.RepoOps
import Maw.Recovery.DestroyRecords
import Maw.Recovery.RecoveryRefs

/-!
# Collecting refs that are not needed any more

The refs of workspaces without a directory are removed, then the recovery refs of old commits, and
then the destroy records that name refs which are gone.

## Main definitions

* `GcEnv.pruneDanglingHeadRefs`, `GcEnv.sweepRecoveryRefs`, `GcEnv.pruneDesyncedDestroyRecords` —
  the three sweeps.
* `GcEnv.run` — the whole collection.
* `GcEnv.KeepsOwned`, `GcEnv.KeepsRecent`, `GcEnv.KeepsClaims` — what a collection is to leave.

## Main results

* `GcEnv.run_collects` — what a collection leaves alone.
* `run_collects_needed` — a fresh pin of an old commit and the refs of a default workspace that is
  the root of its repository are removed.
-/

namespace Maw

structure RefGcReport where
  headRefsDeleted : ℕ
  recoveryRefsDeleted : ℕ
  recoveryRefsKept : ℕ
  staleHeadNames : List String
  deletedRecoveryRefs : List String
  destroyRecordsDeleted : ℕ
  deletedDestroyRecords : List (String × String)
  deriving DecidableEq, Repr

def RefGcReport.empty : RefGcReport := ⟨0, 0, 0, [], [], 0, []⟩

/-- The refs, the destroy records, and what has been done to them. -/
structure GcState where
  refs : RefStore
  records : FiniteMap String DestroyDir
  report : RefGcReport

/-- What a collection knows of its repository. -/
structure GcEnv where
  root : RepoRoot
  /-- The state file of a merge, if it can be read. -/
  mergeState : Option MergeStateFile
  staleness : MergeStateFile → Staleness
  now : ℕ
  /-- The committer times of the commits that can be read. -/
  committerTime : GitOid → Option ℤ

/-- The refs that a workspace has. -/
def workspaceOwnedRefs (ws : String) : List String :=
  ["refs/manifold/ws/" ++ ws, "refs/manifold/epoch/ws/" ++ ws, Oplog.headRefPrefix ++ ws]

/-- The workspaces with records. -/
def listDestroyedWorkspaces (records : FiniteMap String DestroyDir) : List String :=
  sortNames (records.keys.filter fun ws => (records.lookup ws).any fun dir =>
    dir.latest.isSome || !dir.listRecordFiles.isEmpty)

namespace GcEnv

variable (env : GcEnv)

/-- The sources of a merge that is going on. -/
def liveMergeSourceNames : List String :=
  match env.mergeState with
  | none => []
  | some state =>
    if state.phase.isTerminal then []
    else if env.staleness state = .live then state.sources.map WorkspaceId.name
    else []

/-- Remove the refs of a workspace that has a head but no directory. -/
def pruneHead (dryRun : Bool) (s : GcState) (e : String × GitOid) : GcState :=
  let ws := (Oplog.stripHeadRefPrefix e.1).getD ""
  if ws = "" ∨ ws ∈ env.root.dirs ∨ ws ∈ env.liveMergeSourceNames then s
  else
    { s with
      refs := if dryRun then s.refs else (workspaceOwnedRefs ws).foldl (fun refs r => refs.erase r) s.refs
      report := { s.report with
        staleHeadNames := s.report.staleHeadNames ++ [ws]
        headRefsDeleted := s.report.headRefsDeleted + 1 } }

def pruneDanglingHeadRefs (dryRun : Bool) (headRefs : List (String × GitOid)) (s : GcState) :
    GcState :=
  headRefs.foldl (env.pruneHead dryRun) s

/-- The time of a commit; one before 1970 counts as unknown. -/
def getCommitTimestamp (oid : GitOid) : Option ℕ :=
  (env.committerTime oid).bind fun t => if 0 ≤ t then some t.toNat else none

def cutoff (olderThanDays : ℕ) : ℕ := env.now - olderThanDays * 86400

/-- Remove a recovery ref whose commit is from before the cutoff. -/
def sweepRef (olderThanDays : ℕ) (dryRun : Bool) (s : GcState) (e : String × GitOid) : GcState :=
  if (env.getCommitTimestamp e.2).any (· ≤ env.cutoff olderThanDays) then
    { s with
      refs := if dryRun then s.refs else s.refs.erase e.1
      report := { s.report with
        deletedRecoveryRefs := s.report.deletedRecoveryRefs ++ [e.1]
        recoveryRefsDeleted := s.report.recoveryRefsDeleted + 1 } }
  else { s with report.recoveryRefsKept := s.report.recoveryRefsKept + 1 }

def sweepRecoveryRefs (olderThanDays : ℕ) (dryRun : Bool) (recoveryRefs : List (String × GitOid))
    (s : GcState) : GcState :=
  recoveryRefs.foldl (env.sweepRef olderThanDays dryRun) s

/-- Whether a record is removed, given the recovery refs that there were and those that were
removed. -/
def shouldPrune (olderThanDays : ℕ) (existing swept : List String) (record : DestroyRecord) : Bool :=
  match record.recoveryRef with
  | none => false
  | some claimed =>
    if claimed ∈ swept then true
    else if claimed ∈ existing then false
    else record.destroyedAtEpochSecs.any (· ≤ env.cutoff olderThanDays)

/-- Look at one record of a workspace without a directory. -/
def pruneRecord (olderThanDays : ℕ) (dryRun : Bool) (existing swept : List String) (ws : String)
    (s : GcState) (filename : String) : Except RecordError GcState :=
  match s.records.lookup ws with
  | none => .ok s
  | some dir =>
    match dir.readRecord filename with
    | .error _ => .ok s
    | .ok record =>
      if env.shouldPrune olderThanDays existing swept record then do
        let records ← if dryRun then pure s.records else do
          let (dir', _) ← dir.removeRecord filename
          pure (s.records.insert ws dir')
        return { s with
          records
          report := { s.report with
            destroyRecordsDeleted := s.report.destroyRecordsDeleted + 1
            deletedDestroyRecords := s.report.deletedDestroyRecords ++ [(ws, filename)] } }
      else .ok s

/-- Look at the records of one workspace. -/
def pruneWorkspace (olderThanDays : ℕ) (dryRun : Bool) (existing swept : List String) (s : GcState)
    (ws : String) : Except RecordError GcState :=
  if ws ∈ env.root.dirs then .ok s
  else (((s.records.lookup ws).map DestroyDir.listRecordFiles).getD []).foldlM
    (env.pruneRecord olderThanDays dryRun existing swept ws) s

/-- The sweeps over refs; those of heads and the recovery refs are listed in some order. -/
def sweepRefs (olderThanDays : ℕ) (dryRun : Bool) (headRefs recoveryRefs : List (String × GitOid))
    (s : GcState) : GcState :=
  env.sweepRecoveryRefs olderThanDays dryRun recoveryRefs
    (env.pruneDanglingHeadRefs dryRun headRefs { s with report := .empty })

def pruneDesyncedDestroyRecords (olderThanDays : ℕ) (dryRun : Bool) (existing swept : List String)
    (s : GcState) : Except RecordError GcState :=
  (listDestroyedWorkspaces s.records).foldlM (env.pruneWorkspace olderThanDays dryRun existing swept) s

/-- The collection. -/
def run (olderThanDays : ℕ) (dryRun : Bool) (headRefs recoveryRefs : List (String × GitOid))
    (s : GcState) : Except RecordError GcState :=
  let s := env.sweepRefs olderThanDays dryRun headRefs recoveryRefs s
  env.pruneDesyncedDestroyRecords olderThanDays dryRun (recoveryRefs.map Prod.fst)
    s.report.deletedRecoveryRefs s

/-- The refs of the workspaces that have a directory or are merged stay. -/
def KeepsOwned (refs refs' : RefStore) : Prop :=
  ∀ ws, ws ∈ env.root.dirs ∨ ws ∈ env.liveMergeSourceNames →
    ∀ r ∈ workspaceOwnedRefs ws, refs'.lookup r = refs.lookup r

/-- The recovery refs of commits from after the cutoff or of an unknown time stay. -/
def KeepsRecent (olderThanDays : ℕ) (refs refs' : RefStore) : Prop :=
  ∀ refName oid, recoveryPrefix.toList <+: refName.toList → refs.lookup refName = some oid →
    (∀ ts, env.getCommitTimestamp oid = some ts → env.cutoff olderThanDays < ts) →
      refs'.lookup refName = some oid

/-- No record of a workspace without a directory names a recovery ref that was removed. -/
def KeepsClaims (s s' : GcState) : Prop :=
  ∀ ws dir filename record claimed, ws ∉ env.root.dirs → s'.records.lookup ws = some dir →
    filename ∈ dir.listRecordFiles → dir.readRecord filename = .ok record →
      record.recoveryRef = some claimed → recoveryPrefix.toList <+: claimed.toList →
        claimed ∈ s.refs → claimed ∈ s'.refs

/-! ### Refs -/

section Refs

variable {env} {dryRun : Bool} {s s' : GcState} {headRefs recoveryRefs : List (String × GitOid)}
  {refName : String} {olderThanDays : ℕ}

theorem lookup_foldl_erase (names : List String) (refs : RefStore) :
    (names.foldl (fun refs r => refs.erase r) refs).lookup refName =
      if refName ∈ names then none else refs.lookup refName := by
  induction names generalizing refs with
  | nil => simp
  | cons name names ih =>
    rw [List.foldl_cons, ih, FiniteMap.lookup_erase]
    by_cases hname : refName = name
    · simp [hname]
    · simp [hname]

/-- The refs of a workspace stay unless it is pruned itself. -/
theorem lookup_pruneHead (e : String × GitOid)
    (h : ∀ ws, ws ∉ env.root.dirs → ws ∉ env.liveMergeSourceNames →
      refName ∉ workspaceOwnedRefs ws) :
    (env.pruneHead dryRun s e).refs.lookup refName = s.refs.lookup refName := by
  rw [pruneHead]
  split_ifs with hskip hdry
  · rfl
  · rfl
  · simp only [not_or] at hskip
    exact (lookup_foldl_erase _ _).trans (if_neg (h _ hskip.2.1 hskip.2.2))

theorem lookup_pruneDanglingHeadRefs
    (h : ∀ ws, ws ∉ env.root.dirs → ws ∉ env.liveMergeSourceNames →
      refName ∉ workspaceOwnedRefs ws) :
    (env.pruneDanglingHeadRefs dryRun headRefs s).refs.lookup refName = s.refs.lookup refName := by
  rw [pruneDanglingHeadRefs]
  induction headRefs generalizing s with
  | nil => rfl
  | cons e headRefs ih => rw [List.foldl_cons, ih, lookup_pruneHead e h]

theorem pruneHead_frame (e : String × GitOid) :
    (env.pruneHead dryRun s e).records = s.records ∧
      (env.pruneHead dryRun s e).report.deletedRecoveryRefs = s.report.deletedRecoveryRefs := by
  rw [pruneHead]
  split_ifs <;> exact ⟨rfl, rfl⟩

theorem pruneDanglingHeadRefs_frame :
    (env.pruneDanglingHeadRefs dryRun headRefs s).records = s.records ∧
      (env.pruneDanglingHeadRefs dryRun headRefs s).report.deletedRecoveryRefs =
        s.report.deletedRecoveryRefs := by
  rw [pruneDanglingHeadRefs]
  induction headRefs generalizing s with
  | nil => exact ⟨rfl, rfl⟩
  | cons e headRefs ih =>
    obtain ⟨hrecords, hdeleted⟩ := @pruneHead_frame env dryRun s e
    rw [List.foldl_cons, ih.1, ih.2]
    exact ⟨hrecords, hdeleted⟩

/-- The recovery refs that are removed. -/
def swept (env : GcEnv) (olderThanDays : ℕ) (recoveryRefs : List (String × GitOid)) : List String :=
  (recoveryRefs.filter fun e =>
    (env.getCommitTimestamp e.2).any (· ≤ env.cutoff olderThanDays)).map Prod.fst

theorem swept_cons (e : String × GitOid) :
    env.swept olderThanDays (e :: recoveryRefs) =
      env.swept olderThanDays [e] ++ env.swept olderThanDays recoveryRefs := by
  rw [swept, swept, swept, ← List.map_append, ← List.filter_append]
  rfl

theorem sweepRef_spec (e : String × GitOid) :
    (env.sweepRef olderThanDays false s e).refs.lookup refName =
        (if refName ∈ env.swept olderThanDays [e] then none else s.refs.lookup refName) ∧
      (env.sweepRef olderThanDays false s e).report.deletedRecoveryRefs =
        s.report.deletedRecoveryRefs ++ env.swept olderThanDays [e] ∧
      (env.sweepRef olderThanDays false s e).records = s.records := by
  rw [sweepRef, swept]
  by_cases hold : (env.getCommitTimestamp e.2).any (· ≤ env.cutoff olderThanDays) = true
  · rw [if_pos hold, List.filter_singleton, hold, cond_true]
    refine ⟨(FiniteMap.lookup_erase s.refs e.1 refName).trans ?_, rfl, rfl⟩
    simp
  · rw [if_neg hold, List.filter_singleton, Bool.eq_false_of_not_eq_true hold, cond_false]
    simp

/-- The sweep removes the refs of old commits, lists them, and does nothing else. -/
theorem sweepRecoveryRefs_spec :
    (env.sweepRecoveryRefs olderThanDays false recoveryRefs s).refs.lookup refName =
        (if refName ∈ env.swept olderThanDays recoveryRefs then none else s.refs.lookup refName) ∧
      (env.sweepRecoveryRefs olderThanDays false recoveryRefs s).report.deletedRecoveryRefs =
        s.report.deletedRecoveryRefs ++ env.swept olderThanDays recoveryRefs ∧
      (env.sweepRecoveryRefs olderThanDays false recoveryRefs s).records = s.records := by
  rw [sweepRecoveryRefs]
  induction recoveryRefs generalizing s with
  | nil => simp [swept]
  | cons e recoveryRefs ih =>
    obtain ⟨hrefs, hdeleted, hrecords⟩ := @sweepRef_spec env s refName olderThanDays e
    obtain ⟨hrefs', hdeleted', hrecords'⟩ := @ih (env.sweepRef olderThanDays false s e)
    rw [List.foldl_cons, hrefs', hdeleted', hrecords', hrefs, hdeleted, hrecords,
      @swept_cons env recoveryRefs olderThanDays e]
    refine ⟨?_, List.append_assoc _ _ _, rfl⟩
    by_cases hrest : refName ∈ env.swept olderThanDays recoveryRefs
    · simp [hrest]
    · simp [hrest]

end Refs

/-! ### Records -/

section Records

variable {env} {s s' : GcState} {olderThanDays : ℕ} {existing removed : List String} {ws : String}
  {filename : String}

/-- The records that are left are among those that there were; the refs stay. -/
structure Shrinks (s s' : GcState) : Prop where
  refs : s'.refs = s.refs
  records : ∀ ws dir', s'.records.lookup ws = some dir' → ∃ dir, s.records.lookup ws = some dir ∧
    ∀ filename file, dir'.files.lookup filename = some file → dir.files.lookup filename = some file

theorem Shrinks.refl (s : GcState) : Shrinks s s :=
  ⟨rfl, fun _ dir hdir => ⟨dir, hdir, fun _ _ => id⟩⟩

theorem Shrinks.trans {s s' s'' : GcState} (h : Shrinks s s') (h' : Shrinks s' s'') :
    Shrinks s s'' := by
  refine ⟨h'.refs.trans h.refs, fun ws dir'' hdir'' => ?_⟩
  obtain ⟨dir', hdir', hsub'⟩ := h'.records ws dir'' hdir''
  obtain ⟨dir, hdir, hsub⟩ := h.records ws dir' hdir'
  exact ⟨dir, hdir, fun filename file hfile => hsub _ _ (hsub' _ _ hfile)⟩

/-- A record that is left under the name is one to keep. -/
def Kept (env : GcEnv) (olderThanDays : ℕ) (existing removed : List String) (ws filename : String)
    (s : GcState) : Prop :=
  ∀ dir record, s.records.lookup ws = some dir → dir.readRecord filename = .ok record →
    env.shouldPrune olderThanDays existing removed record = false

theorem readRecord_eq_ok {dir : DestroyDir} {record : DestroyRecord} :
    dir.readRecord filename = .ok record ↔ dir.files.lookup filename = some (.parsed record) := by
  rw [DestroyDir.readRecord]
  split
  · next h => rw [h]; simp
  · next h => simpa using fun hfile => h record hfile

theorem Kept.of_shrinks (h : Kept env olderThanDays existing removed ws filename s)
    (hs : Shrinks s s') : Kept env olderThanDays existing removed ws filename s' := by
  intro dir' record hdir' hrecord
  obtain ⟨dir, hdir, hsub⟩ := hs.records ws dir' hdir'
  exact h dir record hdir (readRecord_eq_ok.mpr (hsub _ _ (readRecord_eq_ok.mp hrecord)))

theorem shrinks_removeRecord {dir dir' : DestroyDir} {found : Bool} {report : RefGcReport}
    (hdir : s.records.lookup ws = some dir) (h : dir.removeRecord filename = .ok (dir', found)) :
    Shrinks s { s with records := s.records.insert ws dir', report } := by
  refine ⟨rfl, fun ws' dir₁ hdir₁ => ?_⟩
  rw [FiniteMap.lookup_insert] at hdir₁
  split_ifs at hdir₁ with hws
  · obtain rfl := Option.some.inj hdir₁
    refine ⟨dir, hws ▸ hdir, fun name file hfile => ?_⟩
    rw [DestroyDir.lookup_of_removeRecord h] at hfile
    split_ifs at hfile
    exact hfile
  · exact ⟨dir₁, hdir₁, fun _ _ => id⟩

/-- Looking at records leaves the refs, also when nothing is to be removed. -/
theorem refs_pruneRecord {dryRun : Bool}
    (h : env.pruneRecord olderThanDays dryRun existing removed ws s filename = .ok s') :
    s'.refs = s.refs := by
  rw [pruneRecord] at h
  split at h
  · cases h
    rfl
  · split at h
    · cases h
      rfl
    · split at h
      · cases dryRun with
        | true =>
          cases h
          rfl
        | false =>
          obtain ⟨left, -, hdone⟩ := ExceptRun.bind_eq_ok.mp h
          cases hdone
          rfl
      · cases h
        rfl

theorem refs_pruneWorkspace {dryRun : Bool}
    (h : env.pruneWorkspace olderThanDays dryRun existing removed s ws = .ok s') :
    s'.refs = s.refs := by
  rw [pruneWorkspace] at h
  split at h
  · cases h
    rfl
  · exact ExceptRun.foldlM_induction (fun _ s₁ => s₁.refs = s.refs)
      (fun _ _ _ _ hs hrecord => (refs_pruneRecord hrecord).trans hs) rfl h

theorem refs_pruneDesyncedDestroyRecords {dryRun : Bool}
    (h : env.pruneDesyncedDestroyRecords olderThanDays dryRun existing removed s = .ok s') :
    s'.refs = s.refs :=
  ExceptRun.foldlM_induction (fun _ s₁ => s₁.refs = s.refs)
    (fun _ _ _ _ hs hws => (refs_pruneWorkspace hws).trans hs) rfl h

/-- A record that was looked at and is left is one to keep. -/
theorem pruneRecord_spec
    (h : env.pruneRecord olderThanDays false existing removed ws s filename = .ok s') :
    Shrinks s s' ∧ Kept env olderThanDays existing removed ws filename s' := by
  rw [pruneRecord] at h
  split at h
  · next hdir =>
    cases h
    refine ⟨.refl s, fun dir record hdir' => ?_⟩
    rw [hdir] at hdir'
    cases hdir'
  · next dir hdir =>
    split at h
    · next hrecord =>
      cases h
      refine ⟨.refl s, fun dir' record hdir' hrecord' => ?_⟩
      rw [hdir] at hdir'
      obtain rfl := Option.some.inj hdir'
      rw [hrecord] at hrecord'
      cases hrecord'
    · next record hrecord =>
      by_cases hprune : env.shouldPrune olderThanDays existing removed record = true
      · rw [if_pos hprune] at h
        obtain ⟨⟨dir', found⟩, hremove, hdone⟩ := ExceptRun.bind_eq_ok.mp h
        cases hdone
        refine ⟨shrinks_removeRecord hdir hremove, fun dir₁ record₁ hdir₁ hrecord₁ => ?_⟩
        rw [Finmap.lookup_insert] at hdir₁
        obtain rfl := Option.some.inj hdir₁
        rw [DestroyDir.readRecord_of_removeRecord hremove, if_pos rfl] at hrecord₁
        cases hrecord₁
      · rw [if_neg hprune] at h
        cases h
        refine ⟨.refl s, fun dir' record' hdir' hrecord' => ?_⟩
        rw [hdir] at hdir'
        obtain rfl := Option.some.inj hdir'
        rw [hrecord] at hrecord'
        obtain rfl := Except.ok.inj hrecord'
        exact Bool.eq_false_of_not_eq_true hprune

/-- The records that are left of a workspace are those to keep. -/
def AllKept (env : GcEnv) (olderThanDays : ℕ) (existing removed : List String) (ws : String)
    (s : GcState) : Prop :=
  ∀ dir filename, s.records.lookup ws = some dir → filename ∈ dir.listRecordFiles →
    Kept env olderThanDays existing removed ws filename s

theorem AllKept.of_shrinks (h : AllKept env olderThanDays existing removed ws s)
    (hs : Shrinks s s') : AllKept env olderThanDays existing removed ws s' := by
  intro dir' filename hdir' hname
  obtain ⟨dir, hdir, hsub⟩ := hs.records ws dir' hdir'
  exact (h dir filename hdir (DestroyDir.listRecordFiles_mono hsub hname)).of_shrinks hs

theorem pruneWorkspace_spec
    (h : env.pruneWorkspace olderThanDays false existing removed s ws = .ok s') :
    Shrinks s s' ∧ (ws ∉ env.root.dirs → AllKept env olderThanDays existing removed ws s') := by
  rw [pruneWorkspace] at h
  split_ifs at h with hdirs
  · cases h
    exact ⟨.refl s, fun hnot => absurd hdirs hnot⟩
  · obtain ⟨hshrinks, hall⟩ := ExceptRun.foldlM_settles Shrinks.refl (fun _ _ _ => Shrinks.trans)
      (P := fun filename => Kept env olderThanDays existing removed ws filename)
      (fun _ _ _ => Kept.of_shrinks) (fun _ _ _ => pruneRecord_spec) h
    refine ⟨hshrinks, fun _ dir' filename hdir' hname => hall filename ?_⟩
    obtain ⟨dir, hdir, hsub⟩ := hshrinks.records ws dir' hdir'
    rw [hdir]
    exact DestroyDir.listRecordFiles_mono hsub hname

theorem mem_listDestroyedWorkspaces {records : FiniteMap String DestroyDir} {dir : DestroyDir}
    (hdir : records.lookup ws = some dir) (hname : filename ∈ dir.listRecordFiles) :
    ws ∈ listDestroyedWorkspaces records := by
  rw [listDestroyedWorkspaces, sortNames, Finset.mem_sort, Finset.mem_filter, Finmap.mem_keys]
  refine ⟨FiniteMap.mem_of_lookup hdir, ?_⟩
  rw [hdir, Option.any_some, Bool.or_eq_true]
  right
  cases hlist : dir.listRecordFiles with
  | nil => simp [hlist] at hname
  | cons => rfl

/-- The records of workspaces with directories are not looked at. -/
theorem pruneDesyncedDestroyRecords_of_dirs {dryRun : Bool}
    (h : ∀ ws ∈ s.records, ws ∈ env.root.dirs) :
    env.pruneDesyncedDestroyRecords olderThanDays dryRun existing removed s = .ok s := by
  have hdirs : ∀ ws ∈ listDestroyedWorkspaces s.records, ws ∈ env.root.dirs := by
    intro ws hws
    rw [listDestroyedWorkspaces, sortNames, Finset.mem_sort, Finset.mem_filter,
      Finmap.mem_keys] at hws
    exact h ws hws.1
  rw [pruneDesyncedDestroyRecords]
  generalize listDestroyedWorkspaces s.records = listed at hdirs
  induction listed with
  | nil => rfl
  | cons ws rest ih =>
    rw [List.foldlM_cons, pruneWorkspace, if_pos (hdirs ws List.mem_cons_self)]
    exact ih fun ws hws => hdirs ws (List.mem_cons_of_mem _ hws)

/-- After the last sweep every record of a workspace without a directory is one to keep. -/
theorem pruneDesyncedDestroyRecords_spec
    (h : env.pruneDesyncedDestroyRecords olderThanDays false existing removed s = .ok s') :
    ∀ ws dir filename record, ws ∉ env.root.dirs → s'.records.lookup ws = some dir →
      filename ∈ dir.listRecordFiles → dir.readRecord filename = .ok record →
        env.shouldPrune olderThanDays existing removed record = false := by
  obtain ⟨hshrinks, hall⟩ := ExceptRun.foldlM_settles Shrinks.refl (fun _ _ _ => Shrinks.trans)
    (P := fun ws s => ws ∉ env.root.dirs → AllKept env olderThanDays existing removed ws s)
    (fun _ _ _ hkept hs hws => (hkept hws).of_shrinks hs) (fun _ _ _ => pruneWorkspace_spec) h
  intro ws dir' filename record hws hdir' hname hrecord
  obtain ⟨dir, hdir, hsub⟩ := hshrinks.records ws dir' hdir'
  have hlisted : ws ∈ listDestroyedWorkspaces s.records :=
    mem_listDestroyedWorkspaces hdir (DestroyDir.listRecordFiles_mono hsub hname)
  exact hall ws hlisted hws dir' filename hdir' hname dir' record hdir' hrecord

end Records

/-! ### The collection -/

section Run

variable {env} {s s' : GcState} {olderThanDays : ℕ} {dryRun : Bool}
  {headRefs recoveryRefs : List (String × GitOid)} {ws refName : String}

/-- What stands before the names of the workspaces in their refs. -/
def ownedPrefixes : List String :=
  ["refs/manifold/ws/", "refs/manifold/epoch/ws/", Oplog.headRefPrefix]

theorem workspaceOwnedRefs_eq (ws : String) :
    workspaceOwnedRefs ws = ownedPrefixes.map (· ++ ws) := rfl

/-- No two of the prefixes, and none of them and that of the recovery refs, begin one another. -/
theorem ownedPrefixes_apart : ∀ p ∈ ownedPrefixes,
    (∀ q ∈ ownedPrefixes, p.toList <+: q.toList → p = q) ∧
      ¬ p.toList <+: recoveryPrefix.toList ∧ ¬ recoveryPrefix.toList <+: p.toList := by
  decide +kernel

theorem exists_prefix_of_mem_workspaceOwnedRefs (h : refName ∈ workspaceOwnedRefs ws) :
    ∃ p ∈ ownedPrefixes, refName = p ++ ws ∧ p.toList <+: refName.toList := by
  rw [workspaceOwnedRefs_eq] at h
  obtain ⟨p, hp, rfl⟩ := List.mem_map.mp h
  exact ⟨p, hp, rfl, ws.toList, (String.toList_append ..).symm⟩

/-- The refs of a workspace are not those of another one. -/
theorem notMem_workspaceOwnedRefs {ws' : String} (hne : ws ≠ ws')
    (h : refName ∈ workspaceOwnedRefs ws) : refName ∉ workspaceOwnedRefs ws' := by
  intro h'
  obtain ⟨p, hp, heq, hbegins⟩ := exists_prefix_of_mem_workspaceOwnedRefs h
  obtain ⟨q, hq, heq', hbegins'⟩ := exists_prefix_of_mem_workspaceOwnedRefs h'
  have hpq : p = q := by
    rcases List.prefix_or_prefix_of_prefix hbegins hbegins' with hle | hle
    · exact (ownedPrefixes_apart p hp).1 q hq hle
    · exact ((ownedPrefixes_apart q hq).1 p hp hle).symm
  refine hne (String.toList_injective ?_)
  have htext : (p ++ ws).toList = (p ++ ws').toList := by rw [← heq, heq', hpq]
  simpa only [String.toList_append, List.append_cancel_left_eq] using htext

/-- The refs of workspaces are no recovery refs. -/
theorem not_recovery_of_mem_workspaceOwnedRefs (h : refName ∈ workspaceOwnedRefs ws) :
    ¬ recoveryPrefix.toList <+: refName.toList := by
  intro hrecovery
  obtain ⟨p, hp, -, hbegins⟩ := exists_prefix_of_mem_workspaceOwnedRefs h
  rcases List.prefix_or_prefix_of_prefix hbegins hrecovery with hle | hle
  · exact (ownedPrefixes_apart p hp).2.1 hle
  · exact (ownedPrefixes_apart p hp).2.2 hle

theorem lookup_pruneDanglingHeadRefs_of_recovery (h : recoveryPrefix.toList <+: refName.toList) :
    (env.pruneDanglingHeadRefs dryRun headRefs s).refs.lookup refName = s.refs.lookup refName :=
  lookup_pruneDanglingHeadRefs fun _ _ _ howned =>
    not_recovery_of_mem_workspaceOwnedRefs howned h

/-- The refs of the workspaces that have a directory or are merged stay when heads are pruned. -/
theorem lookup_pruneDanglingHeadRefs_of_owned
    (hws : ws ∈ env.root.dirs ∨ ws ∈ env.liveMergeSourceNames)
    (h : refName ∈ workspaceOwnedRefs ws) :
    (env.pruneDanglingHeadRefs dryRun headRefs s).refs.lookup refName = s.refs.lookup refName := by
  refine lookup_pruneDanglingHeadRefs fun ws' hdirs hlive => notMem_workspaceOwnedRefs ?_ h
  rintro rfl
  rcases hws with hdirs' | hlive'
  · exact hdirs hdirs'
  · exact hlive hlive'

theorem mem_swept_iff :
    refName ∈ env.swept olderThanDays recoveryRefs ↔ ∃ oid ts, (refName, oid) ∈ recoveryRefs ∧
      env.getCommitTimestamp oid = some ts ∧ ts ≤ env.cutoff olderThanDays := by
  rw [swept, List.mem_map]
  constructor
  · rintro ⟨⟨name, oid⟩, he, rfl⟩
    rw [List.mem_filter, Option.any_eq_true] at he
    obtain ⟨hmem, ts, hts, hold⟩ := he
    exact ⟨oid, ts, hmem, hts, of_decide_eq_true hold⟩
  · rintro ⟨oid, ts, hmem, hts, hold⟩
    refine ⟨(refName, oid), List.mem_filter.mpr ⟨hmem, ?_⟩, rfl⟩
    rw [hts, Option.any_some]
    exact decide_eq_true hold

/-- A ref that is swept is a recovery ref. -/
theorem recovery_of_mem_swept (hlisting : IsRecoveryListing s.refs recoveryRefs)
    (h : refName ∈ env.swept olderThanDays recoveryRefs) :
    recoveryPrefix.toList <+: refName.toList := by
  obtain ⟨oid, ts, hmem, -, -⟩ := mem_swept_iff.mp h
  exact ((hlisting.mem_iff _).mp hmem).2

/-- Without a dry run the sweeps remove the refs of pruned heads and those that are swept. -/
theorem lookup_sweepRefs :
    (env.sweepRefs olderThanDays false headRefs recoveryRefs s).refs.lookup refName =
      if refName ∈ env.swept olderThanDays recoveryRefs then none
      else (env.pruneDanglingHeadRefs false headRefs
        { s with report := .empty }).refs.lookup refName :=
  sweepRecoveryRefs_spec.1

theorem deletedRecoveryRefs_sweepRefs :
    (env.sweepRefs olderThanDays false headRefs recoveryRefs s).report.deletedRecoveryRefs =
      env.swept olderThanDays recoveryRefs := by
  have hempty : (env.pruneDanglingHeadRefs false headRefs
      { s with report := .empty }).report.deletedRecoveryRefs = [] :=
    pruneDanglingHeadRefs_frame.2
  rw [sweepRefs, (@sweepRecoveryRefs_spec env _ recoveryRefs "" olderThanDays).2.1, hempty,
    List.nil_append]

theorem records_sweepRefs :
    (env.sweepRefs olderThanDays false headRefs recoveryRefs s).records = s.records := by
  rw [sweepRefs, (@sweepRecoveryRefs_spec env _ recoveryRefs "" olderThanDays).2.2]
  exact pruneDanglingHeadRefs_frame.1

/-- A dry run leaves the refs. -/
theorem refs_pruneDanglingHeadRefs_dryRun :
    (env.pruneDanglingHeadRefs true headRefs s).refs = s.refs := by
  rw [pruneDanglingHeadRefs]
  induction headRefs generalizing s with
  | nil => rfl
  | cons e headRefs ih =>
    rw [List.foldl_cons, ih, pruneHead]
    split
    · rfl
    · rfl

theorem refs_sweepRefs_dryRun :
    (env.sweepRefs olderThanDays true headRefs recoveryRefs s).refs = s.refs := by
  have hsweep (s : GcState) :
      (env.sweepRecoveryRefs olderThanDays true recoveryRefs s).refs = s.refs := by
    rw [sweepRecoveryRefs]
    induction recoveryRefs generalizing s with
    | nil => rfl
    | cons e recoveryRefs ih =>
      rw [List.foldl_cons, ih, sweepRef]
      split
      · rfl
      · rfl
  rw [sweepRefs, hsweep, refs_pruneDanglingHeadRefs_dryRun]

/-- The sweeps leave the refs of the workspaces that have a directory or are merged. -/
theorem keepsOwned_sweepRefs (hlisting : IsRecoveryListing s.refs recoveryRefs) :
    env.KeepsOwned s.refs (env.sweepRefs olderThanDays dryRun headRefs recoveryRefs s).refs := by
  intro ws hws refName howned
  cases dryRun with
  | true => rw [refs_sweepRefs_dryRun]
  | false =>
    have hnot : refName ∉ env.swept olderThanDays recoveryRefs := fun hswept =>
      not_recovery_of_mem_workspaceOwnedRefs howned (recovery_of_mem_swept hlisting hswept)
    rw [lookup_sweepRefs, if_neg hnot]
    exact lookup_pruneDanglingHeadRefs_of_owned hws howned

/-- They leave the recovery refs of commits from after the cutoff. -/
theorem keepsRecent_sweepRefs (hlisting : IsRecoveryListing s.refs recoveryRefs) :
    env.KeepsRecent olderThanDays s.refs
      (env.sweepRefs olderThanDays dryRun headRefs recoveryRefs s).refs := by
  intro refName oid hbegins hlookup hrecent
  cases dryRun with
  | true => rw [refs_sweepRefs_dryRun, hlookup]
  | false =>
    have hnot : refName ∉ env.swept olderThanDays recoveryRefs := by
      intro hswept
      obtain ⟨oid', ts, hmem, hts, hold⟩ := mem_swept_iff.mp hswept
      have hlookup' := ((hlisting.mem_iff _).mp hmem).1
      obtain rfl : oid = oid' := Option.some.inj (hlookup.symm.trans hlookup')
      exact absurd hold (not_le.mpr (hrecent ts hts))
    rw [lookup_sweepRefs, if_neg hnot, lookup_pruneDanglingHeadRefs_of_recovery hbegins]
    exact hlookup

/-- A record that is left of a workspace without a directory names no ref that was swept. -/
theorem keepsClaims_run
    (h : env.run olderThanDays dryRun headRefs recoveryRefs s = .ok s') : env.KeepsClaims s s' := by
  intro ws dir filename record claimed hws hdir hname hrecord hclaimed hbegins hmem
  have hrefs := refs_pruneDesyncedDestroyRecords h
  rw [hrefs]
  cases dryRun with
  | true => rwa [refs_sweepRefs_dryRun]
  | false =>
    have hkept := pruneDesyncedDestroyRecords_spec h ws dir filename record hws hdir hname hrecord
    rw [deletedRecoveryRefs_sweepRefs, shouldPrune, hclaimed] at hkept
    have hnot : claimed ∉ env.swept olderThanDays recoveryRefs := by
      intro hswept
      simp [hswept] at hkept
    obtain ⟨oid, hlookup⟩ := Finmap.mem_iff.mp hmem
    refine FiniteMap.mem_of_lookup (v := oid) ?_
    rw [lookup_sweepRefs, if_neg hnot, lookup_pruneDanglingHeadRefs_of_recovery hbegins]
    exact hlookup

/-- A collection leaves the refs of the workspaces that have a directory or are merged, the
recovery refs of recent commits, and no record that names a ref which it removed. -/
theorem run_collects (env : GcEnv) (olderThanDays : ℕ) (dryRun : Bool)
    (headRefs recoveryRefs : List (String × GitOid)) (s : GcState)
    (hlisting : IsRecoveryListing s.refs recoveryRefs) :
    env.KeepsOwned s.refs (env.pruneDanglingHeadRefs dryRun headRefs s).refs ∧
      env.KeepsOwned s.refs (env.sweepRefs olderThanDays dryRun headRefs recoveryRefs s).refs ∧
      env.KeepsRecent olderThanDays s.refs
        (env.sweepRefs olderThanDays dryRun headRefs recoveryRefs s).refs ∧
      ∀ s', env.run olderThanDays dryRun headRefs recoveryRefs s = .ok s' →
        s'.refs = (env.sweepRefs olderThanDays dryRun headRefs recoveryRefs s).refs ∧
          env.KeepsClaims s s' :=
  ⟨fun _ hws _ howned => lookup_pruneDanglingHeadRefs_of_owned hws howned,
    keepsOwned_sweepRefs hlisting, keepsRecent_sweepRefs hlisting,
    fun _ h => ⟨refs_pruneDesyncedDestroyRecords h, keepsClaims_run h⟩⟩

end Run

/-- The refs of the workspaces that exist or are merged stay. -/
def KeepsExisting (refs refs' : RefStore) : Prop :=
  ∀ ws, env.root.Exists ws ∨ ws ∈ env.liveMergeSourceNames →
    ∀ r ∈ workspaceOwnedRefs ws, refs'.lookup r = refs.lookup r

/-- The pins from after the cutoff stay. -/
def KeepsFresh (olderThanDays : ℕ) (refs refs' : RefStore) : Prop :=
  ∀ p : Pin, p.refName ∈ refs → (∀ ts, parseIso8601UtcSecs (String.ofList p.time.precise) = some ts →
    env.cutoff olderThanDays < ts) → p.refName ∈ refs'

end GcEnv

/-- No record names a recovery ref that was removed. -/
def KeepsAllClaims (s s' : GcState) : Prop :=
  ∀ ws dir filename record claimed, s'.records.lookup ws = some dir →
    filename ∈ dir.listRecordFiles → dir.readRecord filename = .ok record →
      record.recoveryRef = some claimed → recoveryPrefix.toList <+: claimed.toList →
        claimed ∈ s.refs → claimed ∈ s'.refs

/-! ### A fresh pin of an old commit -/

/-- The pin, a record and the root of the default workspace. -/
def freshPin : Pin := samplePin .plain 4

def freshRecord : DestroyRecord :=
  ⟨"alice", String.ofList freshPin.time.precise, "", some freshPin.refName, none, none, .headOnly,
    [], "", .destroy, ""⟩

def freshDir : DestroyDir := ⟨Finmap.singleton "a.json" (.parsed freshRecord), none⟩

/-- All commits are from 1970, and the time is that of the pin. -/
def freshEnv : GcEnv :=
  ⟨⟨.consolidatedMawDir, ["alice"]⟩, none, fun _ => .live, 1771502404, fun _ => some 0⟩

def freshState : GcState :=
  ⟨Finmap.insert freshPin.refName ⟨1⟩ (Finmap.singleton (Oplog.headRefPrefix ++ defaultWs) ⟨2⟩),
    Finmap.singleton "alice" freshDir, .empty⟩

def freshHeadRefs : List (String × GitOid) := [(Oplog.headRefPrefix ++ defaultWs, ⟨2⟩)]

def freshRecoveryRefs : List (String × GitOid) := [(freshPin.refName, ⟨1⟩)]

theorem freshState_listing : IsRecoveryListing freshState.refs freshRecoveryRefs := by
  have hhead : IsRecoveryListing (Finmap.singleton (Oplog.headRefPrefix ++ defaultWs) ⟨2⟩) [] := by
    refine ⟨List.nodup_nil, fun e => ?_⟩
    simp only [List.not_mem_nil, false_iff, not_and]
    intro hlookup hbegins
    have hname := (Finmap.mem_singleton _ _ _).mp (FiniteMap.mem_of_lookup hlookup)
    rw [hname] at hbegins
    exact absurd hbegins (by decide +kernel)
  refine hhead.insert fun hin => ?_
  exact absurd ((Finmap.mem_singleton _ _ _).mp hin) (by decide +kernel)

theorem run_collects_fresh :
    IsRecoveryListing freshState.refs freshRecoveryRefs ∧
      freshEnv.KeepsRecent 30 freshState.refs
        (freshEnv.sweepRefs 30 false freshHeadRefs freshRecoveryRefs freshState).refs :=
  ⟨freshState_listing,
    (GcEnv.run_collects freshEnv 30 false freshHeadRefs freshRecoveryRefs freshState
      freshState_listing).2.2.1⟩

/-- The collection of the example goes through. -/
theorem run_freshState :
    freshEnv.run 30 false freshHeadRefs freshRecoveryRefs freshState =
      .ok (freshEnv.sweepRefs 30 false freshHeadRefs freshRecoveryRefs freshState) := by
  refine GcEnv.pruneDesyncedDestroyRecords_of_dirs fun ws hws => ?_
  rw [GcEnv.records_sweepRefs] at hws
  rw [(Finmap.mem_singleton _ _ _).mp hws]
  exact List.mem_singleton.mpr rfl

/-- The refs of a default workspace that is the root are removed, and a fresh pin of an old commit
that a record of a workspace with a directory names. -/
theorem run_collects_needed :
    ∃ s', freshEnv.run 30 false freshHeadRefs freshRecoveryRefs freshState = .ok s' ∧
      ¬ freshEnv.KeepsExisting freshState.refs s'.refs ∧
      ¬ freshEnv.KeepsFresh 30 freshState.refs s'.refs ∧ ¬ KeepsAllClaims freshState s' := by
  set s' := freshEnv.sweepRefs 30 false freshHeadRefs freshRecoveryRefs freshState with hs'
  have hpin : freshPin.refName ∈ freshState.refs := Finmap.mem_insert.mpr (.inl rfl)
  have hgone : freshPin.refName ∉ s'.refs := by
    rw [← Finmap.lookup_eq_none, hs', GcEnv.lookup_sweepRefs, if_pos (by decide +kernel)]
  refine ⟨s', run_freshState, fun hexisting => ?_, fun hfresh => ?_, fun hclaims => ?_⟩
  · -- the head of the default workspace is pruned since it has no directory
    have howned : Oplog.headRefPrefix ++ defaultWs ∈ workspaceOwnedRefs defaultWs := by
      simp [workspaceOwnedRefs]
    have hlookup := hexisting defaultWs (.inl (.inr ⟨rfl, rfl⟩)) _ howned
    have hnone : (freshEnv.pruneDanglingHeadRefs false freshHeadRefs
        { freshState with report := .empty }).refs.lookup (Oplog.headRefPrefix ++ defaultWs) =
          none := by
      have hskip : ¬ (defaultWs = "" ∨ defaultWs ∈ freshEnv.root.dirs ∨
          defaultWs ∈ freshEnv.liveMergeSourceNames) := by decide
      rw [GcEnv.pruneDanglingHeadRefs, freshHeadRefs, List.foldl_cons, List.foldl_nil,
        GcEnv.pruneHead, Oplog.stripHeadRefPrefix_append, Option.getD_some, if_neg hskip]
      exact (GcEnv.lookup_foldl_erase _ _).trans (if_pos howned)
    rw [hs', GcEnv.lookup_sweepRefs, hnone, ite_self] at hlookup
    have hhad : freshState.refs.lookup (Oplog.headRefPrefix ++ defaultWs) = some ⟨2⟩ := by
      have hne : Oplog.headRefPrefix ++ defaultWs ≠ freshPin.refName := by decide +kernel
      rw [freshState, FiniteMap.lookup_insert, if_neg hne, Finmap.lookup_singleton_eq]
    rw [hhad] at hlookup
    cases hlookup
  · -- the pin is as old as the time, but its commit is from before the cutoff
    refine hgone (hfresh freshPin hpin fun ts hts => ?_)
    obtain rfl : 1771502404 = ts := by
      refine Option.some.inj (Eq.trans ?_ hts)
      decide +kernel
    decide
  · -- the record is not looked at since its workspace has a directory
    have hrecords : s'.records.lookup "alice" = some freshDir := by
      rw [hs', GcEnv.records_sweepRefs]
      exact Finmap.lookup_singleton_eq
    have hlisted : "a.json" ∈ freshDir.listRecordFiles := by
      rw [DestroyDir.listRecordFiles, Finset.mem_sort, Finset.mem_filter, Finmap.mem_keys]
      exact ⟨(Finmap.mem_singleton _ _ _).mpr rfl, by decide +kernel⟩
    have hread : freshDir.readRecord "a.json" = .ok freshRecord :=
      GcEnv.readRecord_eq_ok.mpr Finmap.lookup_singleton_eq
    have hbegins : recoveryPrefix.toList <+: freshPin.refName.toList := by decide +kernel
    exact hgone (hclaims "alice" freshDir "a.json" freshRecord _ hrecords hlisted hread rfl hbegins
      hpin)

end Maw
