import Maw.Recovery.PlainDestroy

/-!
# What a destroy without force loses

A destroy counts the paths that differ from the base and can be hashed, and the paths that differ
from HEAD; a prune looks at the snapshot. Neither asks whether HEAD is kept by a ref.

## Main definitions

* `Reachable`, `FilesAtBase` — HEAD is kept by a ref, and the files are as in the base.
* `DestroysSafely`, `PrunesSafely` — only what is kept is destroyed, and the rest is left alone.
* `Overlooked`, `NetEmpty` — nothing is counted, and the snapshot is empty.

## Main results

* `computePatchset_eq_nil`, `pairs_empty_iff` — when nothing is counted, and the snapshot is empty.
* `destroysSafely_iff`, `prunesSafely_iff` — when a destroy and a prune are safe.
-/

open Interleaved KeyedSort ExceptRun

namespace Maw.PlainDestroy

variable {ι : Type} [DecidableEq ι]

/-! ### What is to be kept -/

section Kept

variable (env : DestroyEnv)

/-- A commit is below the current epoch, a branch or a recovery ref. -/
def Reachable (refs : FiniteMap RefKey GitOid) (head : GitOid) : Prop :=
  ∃ key oid, refs.lookup key = some oid ∧ key.keeps = true ∧ env.commits.IsAncestor head oid

/-- What git does not ignore is as in the base. -/
def FilesAtBase (base : GitOid) (wt : Worktree) : Prop :=
  ∀ p, wt.content env.probes.ignored p = (env.commits.treeOf base).lookup p

/-- A destroy removes a workspace only if HEAD and the files are kept, and leaves it alone
otherwise. -/
def DestroysSafely (me : ι) (name : String) (answer : Option Bool) (w : World ι) : Prop :=
  ∀ wt, w.workspaces.lookup name = some wt →
    let w' := ((destroy env me name answer).alone env.exec w).2
    (w'.workspaces.lookup name = none →
      Reachable env w'.refs wt.head ∧ FilesAtBase env (env.healed w name wt).baseEpoch wt) ∧
    (w'.workspaces.lookup name ≠ none →
      w'.workspaces.lookup name = some wt ∧ w'.refs = w.refs)

/-- The base that a prune compares a workspace with. -/
def pruneBase (w : World ι) (name : String) (wt : Worktree) : GitOid :=
  snapshotBase w.epoch (env.healed w name wt)

/-- A prune removes a workspace only if HEAD and the files are kept, and leaves it alone otherwise.
-/
def PrunesSafely (force includeEmpty : Bool) (w : World ι) : Prop :=
  ∀ name wt, w.workspaces.lookup name = some wt →
    let w' := ((prune env force includeEmpty : DestroyProg ι Unit).alone env.exec w).2
    (w'.workspaces.lookup name = none →
      Reachable env w'.refs wt.head ∧ FilesAtBase env (pruneBase env w name wt) wt) ∧
    (w'.workspaces.lookup name ≠ none → w'.workspaces.lookup name = some wt ∧
      ∀ key : RefKey, key.ownedBy name = true → w'.refs.lookup key = w.refs.lookup key)

variable {env}

theorem reachable_congr {refs refs' : FiniteMap RefKey GitOid} {head : GitOid}
    (h : ∀ key : RefKey, key.keeps = true → refs'.lookup key = refs.lookup key) :
    Reachable env refs' head ↔ Reachable env refs head := by
  constructor
  · rintro ⟨key, oid, hkey, hkeeps, habove⟩
    rw [h key hkeeps] at hkey
    exact ⟨key, oid, hkey, hkeeps, habove⟩
  · rintro ⟨key, oid, hkey, hkeeps, habove⟩
    rw [← h key hkeeps] at hkey
    exact ⟨key, oid, hkey, hkeeps, habove⟩

theorem RefKey.not_ownedBy_of_keeps {key : RefKey} {name : String} (h : key.keeps = true) :
    key.ownedBy name = false := by
  cases key <;> first | rfl | cases h

end Kept

/-! ### What is counted -/

section Counted

variable (probes : WorktreeProbes) (base : GitTree) (wt : Worktree)

/-- A line of the diff that gives no change: its file is skipped. -/
def Skipped : NameStatus → Prop
  | .one .added p => hashObjectWrite probes wt.disk p = .ok none
  | .one .modified p => blobAt base p ≠ none ∧ hashObjectWrite probes wt.disk p = .ok none
  | .renamed source p => blobAt base source ≠ none ∧ hashObjectWrite probes wt.disk p = .ok none
  | .one .deleted _ | .one .typeChanged _ => False

/-- What differs from the base is all skipped. -/
def AllSkipped : Prop :=
  (∀ line ∈ diffNameStatus probes base wt, Skipped probes base wt line) ∧
    ∀ p ∈ untrackedPaths probes wt, hashObjectWrite probes wt.disk p = .ok none

variable {probes base wt}

theorem map_eq_none {f : GitOid → Path × PatchValue} {r : Except DiffError (Option GitOid)} :
    (do let blob ← r; pure (blob.map f) : Except DiffError _) = .ok none ↔ r = .ok none := by
  rcases r with e | blob
  · constructor <;> intro h <;> cases h
  · cases blob with
    | none => exact Iff.intro (fun _ => rfl) fun _ => rfl
    | some b => constructor <;> intro h <;> cases h

theorem trackedChange_eq_none {line : NameStatus} :
    trackedChange probes base wt line = .ok none ↔ Skipped probes base wt line := by
  have hmodified {source p : Path} {f : GitOid → GitOid → Path × PatchValue} :
      (do
        let baseBlob ← epochBlobOid base source
        let blob ← hashObjectWrite probes wt.disk p
        pure (blob.map (f baseBlob)) : Except DiffError _) = .ok none ↔
      blobAt base source ≠ none ∧ hashObjectWrite probes wt.disk p = .ok none := by
    rw [epochBlobOid]
    cases blobAt base source with
    | none => exact iff_of_false (fun h => by cases h) fun h => h.1 rfl
    | some b => exact map_eq_none.trans ⟨fun h => ⟨by simp, h⟩, fun h => h.2⟩
  cases line with
  | one kind p =>
    cases kind with
    | added => exact map_eq_none
    | modified => exact hmodified
    | deleted =>
      rw [trackedChange, Skipped, epochBlobOid]
      cases blobAt base p with
      | none => exact iff_of_false (fun h => by cases h) id
      | some b => exact iff_of_false (fun h => by cases h) id
    | typeChanged => exact iff_of_false (fun h => by cases h) id
  | renamed source p => exact hmodified

/-- Nothing is put together if nothing is found anywhere. -/
theorem mapM_reduceOption_eq_nil {α β ε : Type} {f : α → Except ε (Option β)}
    {xs : List α} :
    (∃ rs, xs.mapM f = .ok rs ∧ rs.reduceOption = []) ↔ ∀ x ∈ xs, f x = .ok none := by
  induction xs with
  | nil => exact ⟨fun _ x hx => absurd hx List.not_mem_nil, fun _ => ⟨[], rfl, rfl⟩⟩
  | cons x xs ih =>
    rw [List.forall_mem_cons, ← ih, List.mapM_cons]
    constructor
    · rintro ⟨rs, hrs, hnil⟩
      obtain ⟨r, hr, hrs⟩ := bind_eq_ok.mp hrs
      obtain ⟨rest, hrest, hrs⟩ := bind_eq_ok.mp hrs
      obtain rfl := pure_eq_ok.mp hrs
      cases r with
      | none => exact ⟨hr, rest, hrest, by simpa using hnil⟩
      | some b => simp at hnil
    · rintro ⟨hx, rest, hrest, hnil⟩
      refine ⟨none :: rest, ?_, by simpa using hnil⟩
      rw [hx, hrest]
      rfl

/-- Nothing is counted exactly if everything is skipped. -/
theorem computePatchset_eq_nil :
    computePatchset probes base wt = .ok [] ↔ AllSkipped probes base wt := by
  rw [AllSkipped]
  have htracked : (∃ rs, (diffNameStatus probes base wt).mapM (trackedChange probes base wt) =
      .ok rs ∧ rs.reduceOption = []) ↔ ∀ line ∈ diffNameStatus probes base wt,
        Skipped probes base wt line := by
    simp only [mapM_reduceOption_eq_nil, trackedChange_eq_none]
  have huntracked : (∃ rs, (untrackedPaths probes wt).mapM (untrackedChange probes wt) =
      .ok rs ∧ rs.reduceOption = []) ↔ ∀ p ∈ untrackedPaths probes wt,
        hashObjectWrite probes wt.disk p = .ok none := by
    simp only [mapM_reduceOption_eq_nil, untrackedChange, map_eq_none]
  rw [← htracked, ← huntracked]
  constructor
  · intro h
    obtain ⟨tracked, htr, h⟩ := bind_eq_ok.mp h
    obtain ⟨untracked, hun, h⟩ := bind_eq_ok.mp h
    have hnil := pure_eq_ok.mp h
    obtain ⟨hnil, hnil'⟩ := List.append_eq_nil_iff.mp hnil
    rw [hnil] at hun
    refine ⟨⟨tracked, htr, hnil⟩, untracked, ?_, hnil'⟩
    simpa using hun
  · rintro ⟨⟨tracked, htr, hnil⟩, untracked, hun, hnil'⟩
    refine bind_eq_ok.mpr ⟨tracked, htr, bind_eq_ok.mpr ⟨untracked, ?_, ?_⟩⟩
    · rw [hnil]
      simpa using hun
    · rw [hnil, hnil']
      rfl

end Counted

/-! ### One destroy on its own -/

section Destroy

variable (env : DestroyEnv) (me : ι) (name : String) (answer : Option Bool) (w : World ι)
  (wt : Worktree)

/-- A merge that has not come to its end has the workspace among its sources. -/
def InMerge : Prop := ∃ m, w.merge = some m ∧ m.terminal = false ∧ name ∈ m.sources

/-- Nothing in the workspace is counted: no path differs from HEAD, and what differs from the base
is skipped. -/
def Overlooked (base : GitOid) : Prop :=
  env.dirtyCount wt = 0 ∧ AllSkipped env.probes (env.commits.treeOf base) wt

/-- What a destroy needs to be safe: if nothing is counted, HEAD is kept and has the tree of the
base; if it goes no further, the recorded epoch does not lag behind. -/
def DestroyHeeds : Prop :=
  ∀ wt, w.workspaces.lookup name = some wt → name ≠ env.defaultWorkspace → ¬ InMerge name w →
    w.lock = none →
      (Overlooked env wt (env.healed w name wt).baseEpoch ∧ answer ≠ some false →
        Reachable env w.refs wt.head ∧ ∀ p, (env.commits.treeOf wt.head).lookup p =
          (env.commits.treeOf (env.healed w name wt).baseEpoch).lookup p) ∧
      (¬ (Overlooked env wt (env.healed w name wt).baseEpoch ∧ answer ≠ some false) →
        (env.healed w name wt).epochRef = w.refs.lookup (.wsEpoch name))

variable {env me name answer w wt}

omit [DecidableEq ι] in
@[simp]
theorem recordEpoch_workspaces (w : World ι) (ws : Workspace) :
    (DestroyEnv.recordEpoch w ws).workspaces = w.workspaces := by
  rw [DestroyEnv.recordEpoch]
  cases ws.epochRef <;> rfl

omit [DecidableEq ι] in
/-- A repair records an epoch or leaves the workspace as it is. -/
theorem healed_cases (env : DestroyEnv) (w : World ι) (name : String) (wt : Worktree) :
    (∃ oid, env.healed w name wt = ⟨name, some oid, wt⟩) ∨
      env.healed w name wt = w.workspace name wt := by
  rw [DestroyEnv.healed]
  cases w.epoch with
  | none => exact Or.inr rfl
  | some current =>
    rw [healEpochRef]
    split_ifs
    · exact Or.inl ⟨current, rfl⟩
    · exact Or.inr rfl

omit [DecidableEq ι] in
@[simp]
theorem healed_name : (env.healed w name wt).name = name := by
  rcases healed_cases env w name wt with ⟨oid, h⟩ | h
  · rw [h]
  · rw [h]
    rfl

omit [DecidableEq ι] in
/-- A repair records an epoch, or nothing where nothing is recorded. -/
theorem healed_epochRef_eq_none (h : (env.healed w name wt).epochRef = none) :
    w.refs.lookup (.wsEpoch name) = none := by
  rcases healed_cases env w name wt with ⟨oid, heq⟩ | heq
  · rw [heq] at h
    cases h
  · rw [heq] at h
    exact h

omit [DecidableEq ι] in
/-- After a repair the recorded epoch is the one of the repaired workspace, and no other ref
changes. -/
theorem lookup_recordEpoch (key : RefKey) :
    (DestroyEnv.recordEpoch w (env.healed w name wt)).refs.lookup key =
      if key = .wsEpoch name then (env.healed w name wt).epochRef else w.refs.lookup key := by
  rw [DestroyEnv.recordEpoch]
  cases href : (env.healed w name wt).epochRef with
  | none =>
    split_ifs with hkey
    · rw [hkey]
      exact healed_epochRef_eq_none href
    · rfl
  | some oid => simp only [healed_name, FiniteMap.lookup_insert]

omit [DecidableEq ι] in
theorem recordEpoch_refs_eq_iff :
    (DestroyEnv.recordEpoch w (env.healed w name wt)).refs = w.refs ↔
      (env.healed w name wt).epochRef = w.refs.lookup (.wsEpoch name) := by
  constructor
  · intro h
    rw [← h, lookup_recordEpoch, if_pos rfl]
  · intro h
    refine Finmap.ext_lookup fun key => ?_
    rw [lookup_recordEpoch]
    split_ifs with hkey
    · rw [h, hkey]
    · rfl

theorem alone_guard (env : DestroyEnv) (name : String) (w : World ι) :
    (InMerge name w ∧ (guardDestroyAgainstInflightMerge name).alone env.exec w =
      (.error .frozen, w)) ∨
    (¬ InMerge name w ∧
      (guardDestroyAgainstInflightMerge name).alone env.exec w = (.ok (), w)) := by
  rw [guardDestroyAgainstInflightMerge, alone_bind, alone_attempt, DestroyEnv.exec]
  cases hmerge : w.merge with
  | none =>
    refine Or.inr ⟨?_, rfl⟩
    rintro ⟨m, hm, -⟩
    rw [hmerge] at hm
    cases hm
  | some m =>
    have hiff : InMerge name w ↔ m.terminal = false ∧ name ∈ m.sources := by
      constructor
      · rintro ⟨m', hm, hrest⟩
        rw [hmerge] at hm
        cases hm
        exact hrest
      · exact fun h => ⟨m, hmerge, h⟩
    rw [hiff]
    simp only
    cases m.terminal with
    | true => exact Or.inr ⟨fun h => Bool.noConfusion h.1, rfl⟩
    | false =>
      by_cases hsource : name ∈ m.sources
      · refine Or.inl ⟨⟨rfl, hsource⟩, ?_⟩
        rw [if_neg Bool.false_ne_true, if_pos hsource]
        rfl
      · refine Or.inr ⟨fun h => hsource h.2, ?_⟩
        rw [if_neg Bool.false_ne_true, if_neg hsource]
        rfl

theorem alone_withEpochLock (p : DestroyProg ι Unit) (w : World ι) :
    ((withEpochLock me p).alone env.exec w).2 =
      if w.lock = none then
        (env.exec (.releaseLock me) (p.alone env.exec { w with lock := some me }).2).2
      else w := by
  rw [withEpochLock, alone_bind, alone_attempt, DestroyEnv.exec]
  split_ifs with hlock
  · change (Prog.eval env.exec (p.run >>= _) _).2 = _
    rw [Prog.eval_bind]
    rfl
  · rfl

/-- The world when a workspace is removed. -/
def removed (env : DestroyEnv) (name : String) (w : World ι) : World ι :=
  (env.exec (.backendDestroy name) (env.exec (.recordDestroyOp name) w).2).2

/-- A destroy under the lock removes the workspace exactly if nothing is counted and the user
agrees. -/
theorem alone_destroyLocked (env : DestroyEnv) (answer : Option Bool)
    (hlookup : w.workspaces.lookup name = some wt) :
    (Overlooked env wt (env.healed w name wt).baseEpoch ∧ answer ≠ some false ∧
      ((destroyLocked name answer).alone env.exec w).2 =
        removed env name (DestroyEnv.recordEpoch w (env.healed w name wt))) ∨
    (¬ (Overlooked env wt (env.healed w name wt).baseEpoch ∧ answer ≠ some false) ∧
      ((destroyLocked name answer).alone env.exec w).2 =
        DestroyEnv.recordEpoch w (env.healed w name wt)) := by
  have hlookup' : (DestroyEnv.recordEpoch w (env.healed w name wt)).workspaces.lookup name =
      some wt := by
    rw [recordEpoch_workspaces, hlookup]
  rw [destroyLocked, alone_bind, alone_attempt, DestroyEnv.exec]
  simp only [hlookup]
  rw [alone_bind, alone_attempt, DestroyEnv.exec]
  simp only [hlookup']
  rw [Overlooked, ← computePatchset_eq_nil]
  cases hpatches : computePatchset env.probes
      (env.commits.treeOf (env.healed w name wt).baseEpoch) wt with
  | error e =>
    refine Or.inr ⟨fun h => ?_, rfl⟩
    cases h.1.2
  | ok patches =>
    simp only [Except.map, Except.mapError]
    split_ifs with hcount hanswer
    · refine Or.inr ⟨?_, rfl⟩
      rintro ⟨⟨hdirty, hnil⟩, -⟩
      rw [Except.ok.inj hnil, hdirty] at hcount
      exact absurd hcount (lt_irrefl 0)
    · exact Or.inr ⟨fun h => h.2 hanswer, rfl⟩
    · rw [not_lt, Nat.le_zero, Nat.max_eq_zero_iff, List.length_eq_zero_iff] at hcount
      refine Or.inl ⟨⟨hcount.2, by rw [hcount.1]⟩, hanswer, ?_⟩
      rw [alone_bind, alone_ignoreError, alone_attempt, removed]
      rfl

theorem lookup_removed_workspaces (other : String) :
    (removed env name w).workspaces.lookup other =
      if other = name then none else w.workspaces.lookup other :=
  FiniteMap.lookup_erase ..

/-- A removal leaves the refs that keep commits. -/
theorem lookup_removed_refs {key : RefKey} (hkey : key.keeps = true) :
    (removed env name w).refs.lookup key = w.refs.lookup key := by
  have hne : key ≠ .opHead name := by
    rintro rfl
    cases hkey
  have hkept : (removed env name w).refs.lookup key =
      if key.ownedBy name = false then _ else none := FiniteMap.lookup_filterKeys ..
  rw [hkept, if_pos (RefKey.not_ownedBy_of_keeps hkey)]
  exact (FiniteMap.lookup_insert ..).trans (if_neg hne)

/-- Files that do not differ from HEAD are at the base exactly if HEAD has the tree of the base. -/
theorem filesAtBase_iff (hclean : env.dirtyCount wt = 0) (base : GitOid) :
    FilesAtBase env base wt ↔
      ∀ p, (env.commits.treeOf wt.head).lookup p = (env.commits.treeOf base).lookup p := by
  refine forall_congr' fun p => ?_
  have hnone : wt.statusAt env.probes.ignored (env.commits.treeOf wt.head) p = none := by
    by_contra hne
    obtain ⟨status, hstatus⟩ := Option.ne_none_iff_exists'.mp hne
    have hmem := Worktree.mem_status.mpr hstatus
    rw [List.length_eq_zero_iff.mp hclean] at hmem
    cases hmem
  rcases Worktree.statusAt_cases env.probes.ignored (env.commits.treeOf wt.head) wt p with
    ⟨-, hcontent⟩ | ⟨hdeleted, -⟩ | ⟨status, occupant, hstatus, -⟩
  · rw [hcontent]
  · rw [hnone] at hdeleted
    cases hdeleted
  · rw [hnone] at hstatus
    cases hstatus

/-- A destroy refuses without a change, or goes on under the lock. -/
theorem alone_destroy (env : DestroyEnv) (me : ι) (answer : Option Bool)
    (hlookup : w.workspaces.lookup name = some wt) :
    ((name = env.defaultWorkspace ∨ InMerge name w ∨ w.lock ≠ none) ∧
      ((destroy env me name answer).alone env.exec w).2 = w) ∨
    (name ≠ env.defaultWorkspace ∧ ¬ InMerge name w ∧ w.lock = none ∧
      ((destroy env me name answer).alone env.exec w).2 = (env.exec (.releaseLock me)
        ((destroyLocked name answer).alone env.exec { w with lock := some me }).2).2) := by
  rw [destroy]
  split_ifs with hdefault
  · exact Or.inl ⟨Or.inl hdefault, rfl⟩
  · rw [alone_bind, alone_attempt, DestroyEnv.exec]
    simp only [hlookup, Option.isSome_some, if_true]
    rw [alone_bind]
    rcases alone_guard env name w with ⟨hmerge, hguard⟩ | ⟨hmerge, hguard⟩
    · rw [hguard]
      exact Or.inl ⟨Or.inr (Or.inl hmerge), rfl⟩
    · rw [hguard]
      simp only [alone_withEpochLock]
      split_ifs with hlock
      · exact Or.inr ⟨hdefault, hmerge, hlock, rfl⟩
      · exact Or.inl ⟨Or.inr (Or.inr hlock), rfl⟩

/-- When a destroy is safe. -/
theorem destroysSafely_iff :
    DestroysSafely env me name answer w ↔ DestroyHeeds env name answer w := by
  refine forall_congr' fun wt => forall_congr' fun hlookup => ?_
  rcases alone_destroy env me answer hlookup with
    ⟨hrefused, heq⟩ | ⟨hdefault, hmerge, hlock, heq⟩
  · rw [heq]
    refine iff_of_true ⟨fun hgone => ?_, fun _ => ⟨hlookup, rfl⟩⟩ fun hdefault hmerge hlock => ?_
    · rw [hlookup] at hgone
      cases hgone
    · rcases hrefused with hdefault' | hmerge' | hlock'
      · exact absurd hdefault' hdefault
      · exact absurd hmerge' hmerge
      · exact absurd hlock hlock'
  · rw [heq]
    simp only [hdefault, hmerge, hlock, ne_eq, not_false_eq_true, forall_const]
    have hlocked : ({ w with lock := some me } : World ι).workspaces.lookup name = some wt :=
      hlookup
    rcases alone_destroyLocked env answer hlocked with
      ⟨hover, hanswer, hdone⟩ | ⟨hnot, hdone⟩
    · rw [hdone]
      have hgone : ((env.exec (.releaseLock me) (removed env name (DestroyEnv.recordEpoch
          { w with lock := some me } (env.healed w name wt)))).2).workspaces.lookup name = none :=
        (lookup_removed_workspaces name).trans (if_pos rfl)
      have hreach : Reachable env (env.exec (.releaseLock me) (removed env name
          (DestroyEnv.recordEpoch { w with lock := some me } (env.healed w name wt)))).2.refs
            wt.head ↔ Reachable env w.refs wt.head := by
        refine reachable_congr fun key hkey => (lookup_removed_refs hkey).trans ?_
        refine (lookup_recordEpoch key).trans (if_neg ?_)
        rintro rfl
        cases hkey
      constructor
      · rintro ⟨hsafe, -⟩
        obtain ⟨hkept, hfiles⟩ := hsafe hgone
        exact ⟨fun _ => ⟨hreach.mp hkept, (filesAtBase_iff hover.1 _).mp hfiles⟩,
          fun hnot => absurd ⟨hover, hanswer⟩ hnot⟩
      · rintro ⟨hheeds, -⟩
        obtain ⟨hkept, htree⟩ := hheeds ⟨hover, hanswer⟩
        exact ⟨fun _ => ⟨hreach.mpr hkept, (filesAtBase_iff hover.1 _).mpr htree⟩,
          fun hne => absurd hgone hne⟩
    · rw [hdone]
      have hthere : ((env.exec (.releaseLock me) (DestroyEnv.recordEpoch
          { w with lock := some me } (env.healed w name wt))).2).workspaces.lookup name =
            some wt := by
        refine Eq.trans ?_ hlookup
        exact congrArg (Finmap.lookup name) (recordEpoch_workspaces _ _)
      have hrefs : ((env.exec (.releaseLock me) (DestroyEnv.recordEpoch
          { w with lock := some me } (env.healed w name wt))).2).refs = w.refs ↔
            (env.healed w name wt).epochRef = w.refs.lookup (.wsEpoch name) :=
        recordEpoch_refs_eq_iff (w := { w with lock := some me })
      constructor
      · rintro ⟨-, halone⟩
        obtain ⟨-, hsame⟩ := halone fun hgone =>
          Option.some_ne_none _ (hthere.symm.trans hgone)
        exact ⟨fun hyes => absurd hyes hnot, fun _ => hrefs.mp hsame⟩
      · rintro ⟨-, hheeds⟩
        exact ⟨fun hgone => absurd (hthere.symm.trans hgone) (Option.some_ne_none _),
          fun _ => ⟨hthere, hrefs.mpr (hheeds hnot)⟩⟩

end Destroy

/-! ### Empty snapshots -/

section NetEmpty

variable {isOk : Path → Bool} {ignored : Disk → Path → Bool} {base head : GitTree} {wt : Worktree}

/-- No path differs in either half of the difference, but for those that were added since the base
and are gone from the worktree. -/
def NetEmpty (isOk : Path → Bool) (ignored : Disk → Path → Bool) (base head : GitTree)
    (wt : Worktree) : Prop :=
  ∀ p, (stagedStatus base head p = none ∧ wt.statusAt ignored head p = none) ∨
    (stagedStatus base head p = some .added ∧ wt.statusAt ignored head p = some .deleted ∧
      isOk p = false)

theorem statusAt_kinds (ignored : Disk → Path → Bool) (wt : Worktree) (head : GitTree) (p : Path) :
    wt.statusAt ignored head p = none ∨ wt.statusAt ignored head p = some .added ∨
      wt.statusAt ignored head p = some .modified ∨ wt.statusAt ignored head p = some .deleted := by
  cases hstatus : wt.statusAt ignored head p with
  | none => exact Or.inl rfl
  | some kind =>
    cases kind with
    | added => exact Or.inr (Or.inl rfl)
    | modified => exact Or.inr (Or.inr (Or.inl rfl))
    | deleted => exact Or.inr (Or.inr (Or.inr rfl))
    | renamed => exact absurd hstatus (statusAt_ne _ (Or.inl rfl))
    | untracked => exact absurd hstatus (statusAt_ne _ (Or.inr rfl))

theorem stagedStatus_kinds (base head : GitTree) (p : Path) :
    stagedStatus base head p = none ∨ stagedStatus base head p = some .added ∨
      stagedStatus base head p = some .modified ∨ stagedStatus base head p = some .deleted := by
  rw [stagedStatus]
  cases base.lookup p with
  | none => cases head.lookup p <;> simp
  | some e =>
    cases head.lookup p with
    | none => simp
    | some e' => by_cases he : e = e' <;> simp [he]

/-- What is added relative to a commit is on disk. -/
theorem onDisk_of_added {p : Path} (h : wt.statusAt ignored head p = some .added) :
    wt.disk.OnDisk p := by
  rcases Worktree.statusAt_cases ignored head wt p with ⟨hnone, -⟩ | ⟨hdeleted, -⟩ |
    ⟨status, occupant, -, -, hdisk, -⟩
  · rw [hnone] at h
    cases h
  · rw [hdeleted] at h
    cases h
  · exact ⟨p, Finmap.mem_keys.mpr (FiniteMap.mem_of_lookup hdisk), Or.inl rfl⟩

/-- When the lists of a snapshot are all empty. -/
theorem pairs_empty_iff (hOk : ∀ p, wt.disk.OnDisk p → isOk p = true) :
    ((diffNameStatusPairsWith isOk ignored base head wt).added = ∅ ∧
      (diffNameStatusPairsWith isOk ignored base head wt).modified = ∅ ∧
      (diffNameStatusPairsWith isOk ignored base head wt).deleted = ∅) ↔
    NetEmpty isOk ignored base head wt := by
  simp only [Finset.eq_empty_iff_forall_notMem, ← forall_and]
  refine forall_congr' fun p => ?_
  rw [mem_modified, mem_added, mem_deleted]
  have hdisk : wt.statusAt ignored head p = some .added → isOk p = true :=
    fun h => hOk p (onDisk_of_added h)
  have hblob : stagedStatus base head p = some .added → hasBlobAt base p = false := by
    rw [stagedStatus, hasBlobAt]
    cases base.lookup p with
    | none => exact fun _ => rfl
    | some e => cases head.lookup p <;> simp
  unfold InHalf
  rcases stagedStatus_kinds base head p with hstaged | hstaged | hstaged | hstaged <;>
    rcases statusAt_kinds ignored wt head p with
      hstatus | hstatus | hstatus | hstatus <;>
      cases hbase : hasBlobAt base p <;> cases hok : isOk p <;> simp_all

/-- With an empty snapshot the files are those of the base. -/
theorem content_of_netEmpty (h : NetEmpty isOk ignored base head wt) (p : Path) :
    wt.content ignored p = base.lookup p := by
  rcases h p with ⟨hstaged, hstatus⟩ | ⟨hstaged, hstatus, -⟩
  · have hsame : head.lookup p = base.lookup p := by
      rw [stagedStatus] at hstaged
      cases hbase : base.lookup p with
      | none => cases hhead : head.lookup p <;> simp_all
      | some e => cases hhead : head.lookup p <;> simp_all
    rcases Worktree.statusAt_cases ignored head wt p with ⟨-, hcontent⟩ | ⟨hdeleted, -⟩ |
      ⟨status, occupant, hother, -⟩
    · rw [hcontent, hsame]
    · rw [hstatus] at hdeleted
      cases hdeleted
    · rw [hstatus] at hother
      cases hother
  · have hbase : base.lookup p = none := by
      rw [stagedStatus] at hstaged
      cases hbase : base.lookup p with
      | none => rfl
      | some e => cases hhead : head.lookup p <;> simp_all
    rcases Worktree.statusAt_cases ignored head wt p with ⟨hnone, -⟩ | ⟨-, hgone, -⟩ |
      ⟨status, occupant, hother, hne, -⟩
    · rw [hstatus] at hnone
      cases hnone
    · rw [hgone, hbase]
    · rw [hstatus] at hother
      exact absurd (Option.some.inj hother).symm hne

end NetEmpty

/-! ### One prune on its own -/

section Prune

variable (env : DestroyEnv) (force includeEmpty : Bool) (w : World ι)

/-- A prune takes a workspace for empty. -/
def LooksEmpty (name : String) (wt : Worktree) : Prop :=
  includeEmpty = true ∧ name ≠ env.defaultWorkspace ∧
    NetEmpty (env.metadata wt.disk).isOk env.probes.ignored
      (env.commits.treeOf (pruneBase env w name wt)) (env.commits.treeOf wt.head) wt

/-- What a prune needs to be safe: HEAD of a workspace that looks empty is kept, and the refs of the
others are what a list and a snapshot write. -/
def PruneHeeds : Prop :=
  ∀ name wt, w.workspaces.lookup name = some wt →
    (force = true ∧ LooksEmpty env includeEmpty w name wt → Reachable env w.refs wt.head) ∧
    (¬ (force = true ∧ LooksEmpty env includeEmpty w name wt) →
      (env.healed w name wt).epochRef = w.refs.lookup (.wsEpoch name) ∧
      (includeEmpty = true ∧ name ≠ env.defaultWorkspace ∧ env.gitCompatRefs = true →
        w.refs.lookup (.wsState name) = some (env.stateCommit wt)))

/-- The world after a list has repaired the recorded epochs. -/
def healedWorld (names : List String) : World ι :=
  names.foldl (fun w name => (env.exec (.heal name) w).2) w

/-- The world after the snapshots of workspaces. -/
def refreshedWorld (names : List String) : World ι :=
  names.foldl (fun w name => if name = env.defaultWorkspace then w else
    (env.exec (.snapshot name) w).2) w

/-- The world after workspaces are removed. -/
def prunedWorld (names : List String) : World ι :=
  names.foldl (fun w name => (env.exec (.backendDestroy name) w).2) w

/-- What a snapshot finds empty. -/
def foundEmpty (name : String) : Bool :=
  name ≠ env.defaultWorkspace && (w.workspaces.lookup name).any (env.snapshotIsEmpty w name)

/-- The workspaces that a prune goes through. -/
def tracked : List String :=
  inOrderOf String.toList (fun _ _ => String.toList_injective) w.workspaces.keys

/-- The world when a prune has looked at the workspaces. -/
def lookedAt : World ι :=
  if includeEmpty then refreshedWorld env (healedWorld env w (tracked w)) (tracked w)
  else healedWorld env w (tracked w)

/-- The workspaces that a prune removes. -/
def doomed : List String :=
  if force = true ∧ includeEmpty = true then
    (tracked w).filter (foundEmpty env (healedWorld env w (tracked w)))
  else []

variable {env force includeEmpty w} {names : List String} {name : String} {wt : Worktree}

theorem alone_healAll : (healAll names).alone env.exec w = (.ok (), healedWorld env w names) := by
  induction names generalizing w with
  | nil => rfl
  | cons name names ih =>
    rw [healAll, alone_bind, alone_attempt]
    have hok : (env.exec (.heal name) w).1 = .ok () := by
      rw [DestroyEnv.exec]
      cases w.workspaces.lookup name <;> rfl
    rw [show env.exec (.heal name) w = (.ok (), (env.exec (.heal name) w).2) from
      Prod.ext hok rfl]
    exact ih

theorem alone_pruneEmpty :
    (pruneEmpty names).alone env.exec w = (.ok (), prunedWorld env w names) := by
  induction names generalizing w with
  | nil => rfl
  | cons name names ih =>
    rw [pruneEmpty, alone_bind, alone_ignoreError]
    exact ih

theorem healedWorld_workspaces : (healedWorld env w names).workspaces = w.workspaces := by
  induction names generalizing w with
  | nil => rfl
  | cons name names ih =>
    rw [healedWorld, List.foldl_cons]
    refine ih.trans ?_
    rw [DestroyEnv.exec]
    cases w.workspaces.lookup name with
    | none => rfl
    | some wt => exact recordEpoch_workspaces w _

/-- A repair of one workspace changes its recorded epoch. -/
theorem lookup_heal (name : String) (key : RefKey) :
    (env.exec (.heal name) w).2.refs.lookup key = if key = .wsEpoch name then
      ((w.workspaces.lookup name).map fun wt => (env.healed w name wt).epochRef).getD
        (w.refs.lookup key) else w.refs.lookup key := by
  rw [DestroyEnv.exec]
  cases w.workspaces.lookup name with
  | none => exact (ite_self _).symm
  | some wt => exact lookup_recordEpoch key

/-- Refs other than the recorded epochs of the workspaces are left alone by a list. -/
theorem lookup_healedWorld_of_ne {key : RefKey} (h : ∀ name ∈ names, key ≠ .wsEpoch name) :
    (healedWorld env w names).refs.lookup key = w.refs.lookup key := by
  induction names generalizing w with
  | nil => rfl
  | cons first names ih =>
    rw [healedWorld, List.foldl_cons]
    refine (ih fun name hname => h name (List.mem_cons_of_mem _ hname)).trans ?_
    rw [lookup_heal, if_neg (h first List.mem_cons_self)]

/-- A list repairs the recorded epoch of each workspace. -/
theorem lookup_healedWorld (hnodup : names.Nodup) (hname : name ∈ names)
    (hlookup : w.workspaces.lookup name = some wt) :
    (healedWorld env w names).refs.lookup (.wsEpoch name) = (env.healed w name wt).epochRef := by
  induction names generalizing w with
  | nil => exact absurd hname List.not_mem_nil
  | cons first names ih =>
    obtain ⟨hfirst, hnodup⟩ := List.nodup_cons.mp hnodup
    rw [healedWorld, List.foldl_cons]
    rcases List.mem_cons.mp hname with rfl | hrest
    · refine (lookup_healedWorld_of_ne fun other hother heq => ?_).trans ?_
      · cases heq
        exact hfirst hother
      · rw [lookup_heal, if_pos rfl, hlookup]
        rfl
    · have hne : name ≠ first := by
        rintro rfl
        exact hfirst hrest
      have hworkspaces : (env.exec (.heal first) w).2.workspaces = w.workspaces :=
        show (healedWorld env w [first]).workspaces = w.workspaces from healedWorld_workspaces
      refine (ih hnodup hrest (by rw [hworkspaces, hlookup])).trans ?_
      have hepoch : (env.exec (.heal first) w).2.epoch = w.epoch := by
        rw [World.epoch, lookup_heal, if_neg (by simp)]
        rfl
      have href : (env.exec (.heal first) w).2.refs.lookup (.wsEpoch name) =
          w.refs.lookup (.wsEpoch name) := by
        rw [lookup_heal, if_neg (by simpa using hne)]
      rw [DestroyEnv.healed, DestroyEnv.healed, hepoch, World.workspace, href]
      rfl

omit [DecidableEq ι] in
/-- What a snapshot finds empty depends on the workspaces and the epochs. -/
theorem foundEmpty_congr {w' : World ι} (hworkspaces : w'.workspaces = w.workspaces)
    (hrefs : ∀ key : RefKey, key = .epochCurrent ∨ key = .wsEpoch name →
      w'.refs.lookup key = w.refs.lookup key) :
    foundEmpty env w' name = foundEmpty env w name := by
  have hepoch : w'.epoch = w.epoch := hrefs _ (Or.inl rfl)
  have hworkspace (wt : Worktree) : w'.workspace name wt = w.workspace name wt := by
    rw [World.workspace, hrefs _ (Or.inr rfl)]
    rfl
  have hsame : env.snapshotIsEmpty w' name = env.snapshotIsEmpty w name := by
    funext wt
    simp only [DestroyEnv.snapshotIsEmpty, hepoch, hworkspace]
  rw [foundEmpty, foundEmpty, hworkspaces, hsame]

/-- The snapshot of one workspace writes the ref of its state. -/
theorem lookup_snapshot (name : String) (key : RefKey) :
    (env.exec (.snapshot name) w).2.refs.lookup key =
      if key = .wsState name ∧ env.gitCompatRefs = true then
        ((w.workspaces.lookup name).map env.stateCommit).or (w.refs.lookup key)
      else w.refs.lookup key := by
  rw [DestroyEnv.exec]
  cases w.workspaces.lookup name with
  | none => exact (ite_self _).symm
  | some wt =>
    simp only [DestroyEnv.refreshWorkspaceStateRef]
    split_ifs with hcompat hkey hkey
    · rw [FiniteMap.lookup_insert, if_pos hkey.1]
      rfl
    · rw [FiniteMap.lookup_insert, if_neg fun h => hkey ⟨h, hcompat⟩]
    · exact absurd hkey.2 hcompat
    · rfl

theorem snapshot_workspaces (name : String) :
    (env.exec (.snapshot name) w).2.workspaces = w.workspaces := by
  rw [DestroyEnv.exec]
  cases w.workspaces.lookup name with
  | none => rfl
  | some wt =>
    simp only [DestroyEnv.refreshWorkspaceStateRef]
    split_ifs <;> rfl

theorem refresh_workspaces (name : String) :
    (refreshedWorld env w [name]).workspaces = w.workspaces := by
  rw [refreshedWorld, List.foldl_cons, List.foldl_nil]
  split_ifs
  · rfl
  · exact snapshot_workspaces name

theorem lookup_refresh (name : String) (key : RefKey) :
    (refreshedWorld env w [name]).refs.lookup key =
      if name ≠ env.defaultWorkspace ∧ key = .wsState name ∧ env.gitCompatRefs = true then
        ((w.workspaces.lookup name).map env.stateCommit).or (w.refs.lookup key)
      else w.refs.lookup key := by
  rw [refreshedWorld, List.foldl_cons, List.foldl_nil]
  by_cases hdefault : name = env.defaultWorkspace
  · rw [if_pos hdefault, if_neg fun h => h.1 hdefault]
  · rw [if_neg hdefault, lookup_snapshot]
    simp only [hdefault, ne_eq, not_false_eq_true, true_and]

theorem alone_askEmpty : (askEmpty env name).alone env.exec w =
    (.ok (if name = env.defaultWorkspace then none else (env.exec (.snapshot name) w).1.toOption),
      refreshedWorld env w [name]) := by
  rw [askEmpty, refreshedWorld, List.foldl_cons, List.foldl_nil]
  split_ifs
  · rfl
  · rw [alone_asOption, alone_attempt]

theorem askEmpty_iff : (if name = env.defaultWorkspace then none
    else (env.exec (.snapshot name) w).1.toOption) = some true ↔ foundEmpty env w name = true := by
  rw [foundEmpty, DestroyEnv.exec]
  by_cases hdefault : name = env.defaultWorkspace
  · simp [hdefault]
  · cases w.workspaces.lookup name with
    | none => simp [hdefault, Except.toOption]
    | some wt => simp [hdefault, Except.toOption]

/-- The snapshots of workspaces one after the other. -/
theorem alone_collectEmpty : (collectEmpty env names).alone env.exec w =
    (.ok (names.filter (foundEmpty env w)), refreshedWorld env w names) := by
  induction names generalizing w with
  | nil => rfl
  | cons name names ih =>
    have hsame : names.filter (foundEmpty env (refreshedWorld env w [name])) =
        names.filter (foundEmpty env w) := by
      refine List.filter_congr fun other _ => foundEmpty_congr (refresh_workspaces name) ?_
      rintro key (rfl | rfl)
      · rw [lookup_refresh, if_neg (by simp)]
      · rw [lookup_refresh, if_neg (by simp)]
    have hworld : refreshedWorld env w (name :: names) =
        refreshedWorld env (refreshedWorld env w [name]) names := rfl
    rw [collectEmpty, alone_bind, alone_askEmpty]
    simp only [alone_bind, ih, alone_pure, hsame, List.filter_cons, hworld]
    by_cases hfound : foundEmpty env w name = true
    · rw [if_pos hfound, if_pos (askEmpty_iff.mpr hfound)]
    · rw [if_neg hfound, if_neg fun h => hfound (askEmpty_iff.mp h)]

theorem refreshedWorld_workspaces : (refreshedWorld env w names).workspaces = w.workspaces := by
  induction names generalizing w with
  | nil => rfl
  | cons name names ih =>
    have hworld : refreshedWorld env w (name :: names) =
        refreshedWorld env (refreshedWorld env w [name]) names := rfl
    rw [hworld, ih, refresh_workspaces]

/-- Refs other than those of the states of the workspaces are left alone by the snapshots. -/
theorem lookup_refreshedWorld_of_ne {key : RefKey} (h : ∀ name ∈ names, key ≠ .wsState name) :
    (refreshedWorld env w names).refs.lookup key = w.refs.lookup key := by
  induction names generalizing w with
  | nil => rfl
  | cons first names ih =>
    have hworld : refreshedWorld env w (first :: names) =
        refreshedWorld env (refreshedWorld env w [first]) names := rfl
    rw [hworld, ih fun name hname => h name (List.mem_cons_of_mem _ hname), lookup_refresh]
    exact if_neg fun hkey => h first List.mem_cons_self hkey.2.1

/-- The snapshots write the ref of the state of each workspace that is asked. -/
theorem lookup_refreshedWorld (hname : name ∈ names)
    (hlookup : w.workspaces.lookup name = some wt) :
    (refreshedWorld env w names).refs.lookup (.wsState name) =
      if name ≠ env.defaultWorkspace ∧ env.gitCompatRefs = true then some (env.stateCommit wt)
      else w.refs.lookup (.wsState name) := by
  induction names generalizing w with
  | nil => exact absurd hname List.not_mem_nil
  | cons first names ih =>
    have hworld : refreshedWorld env w (first :: names) =
        refreshedWorld env (refreshedWorld env w [first]) names := rfl
    rw [hworld]
    by_cases hrest : name ∈ names
    · rw [ih hrest (by rw [refresh_workspaces, hlookup])]
      split_ifs with hasked
      · rfl
      · rw [lookup_refresh, if_neg]
        rintro ⟨hdefault, hkey, hcompat⟩
        cases hkey
        exact hasked ⟨hdefault, hcompat⟩
    · obtain rfl : name = first := (List.mem_cons.mp hname).resolve_right hrest
      rw [lookup_refreshedWorld_of_ne, lookup_refresh, hlookup]
      · simp only [true_and]
        rfl
      · rintro other hother heq
        cases heq
        exact hrest hother

theorem prunedWorld_workspaces : (prunedWorld env w names).workspaces.lookup name =
    if name ∈ names then none else w.workspaces.lookup name := by
  induction names generalizing w with
  | nil => simp [prunedWorld]
  | cons first names ih =>
    have hworld : prunedWorld env w (first :: names) =
        prunedWorld env (env.exec (.backendDestroy first) w).2 names := rfl
    have herase : (env.exec (.backendDestroy first) w).2.workspaces.lookup name =
        if name = first then none else w.workspaces.lookup name := FiniteMap.lookup_erase ..
    rw [hworld, ih, herase]
    by_cases hfirst : name = first <;> by_cases hrest : name ∈ names <;> simp [hfirst, hrest]

theorem lookup_prunedWorld (key : RefKey) : (prunedWorld env w names).refs.lookup key =
    if ∀ name ∈ names, key.ownedBy name = false then w.refs.lookup key else none := by
  induction names generalizing w with
  | nil => simp [prunedWorld]
  | cons first names ih =>
    have hworld : prunedWorld env w (first :: names) =
        prunedWorld env (env.exec (.backendDestroy first) w).2 names := rfl
    have hfilter : (env.exec (.backendDestroy first) w).2.refs.lookup key =
        if key.ownedBy first = false then w.refs.lookup key else none :=
      FiniteMap.lookup_filterKeys ..
    rw [hworld, ih, hfilter]
    by_cases hfirst : key.ownedBy first = false
    · simp [hfirst]
    · simp [hfirst]

omit [DecidableEq ι] in
theorem mem_tracked (hlookup : w.workspaces.lookup name = some wt) : name ∈ tracked w := by
  refine mem_inOrderOf.mpr ?_
  rw [Finmap.mem_keys]
  exact FiniteMap.mem_of_lookup hlookup

omit [DecidableEq ι] in
theorem nodup_tracked : (tracked w).Nodup := nodup_inOrderOf

theorem alone_prune : ((prune env force includeEmpty : DestroyProg ι Unit).alone env.exec w).2 =
    prunedWorld env (lookedAt env includeEmpty w) (doomed env force includeEmpty w) := by
  rw [prune, alone_bind, alone_attempt, DestroyEnv.exec]
  simp only
  rw [alone_bind, ← tracked, alone_healAll, lookedAt, doomed]
  cases includeEmpty with
  | true =>
    simp only [if_true, and_true, alone_bind, alone_collectEmpty]
    split_ifs
    · rw [alone_pruneEmpty]
    · rfl
  | false =>
    simp only [Bool.false_eq_true, if_false, and_false, alone_bind, alone_pure]
    split_ifs
    · rw [alone_pruneEmpty]
    · rfl

omit [DecidableEq ι] in
theorem healed_eq (w : World ι) (name : String) (wt : Worktree) :
    env.healed w name wt = ⟨name, (env.healed w name wt).epochRef, wt⟩ := by
  rcases healed_cases env w name wt with ⟨oid, h⟩ | h
  · rw [h]
  · rw [h]
    rfl

/-- A prune removes a workspace exactly if it looks empty. -/
theorem mem_doomed_iff (hlookup : w.workspaces.lookup name = some wt) :
    name ∈ doomed env force includeEmpty w ↔
      force = true ∧ LooksEmpty env includeEmpty w name wt := by
  have hepoch : (healedWorld env w (tracked w)).epoch = w.epoch :=
    lookup_healedWorld_of_ne fun _ _ h => by cases h
  have hworkspace : (healedWorld env w (tracked w)).workspace name wt = env.healed w name wt := by
    rw [World.workspace, lookup_healedWorld nodup_tracked (mem_tracked hlookup) hlookup]
    exact (healed_eq w name wt).symm
  have hempty : foundEmpty env (healedWorld env w (tracked w)) name = true ↔
      name ≠ env.defaultWorkspace ∧ NetEmpty (env.metadata wt.disk).isOk env.probes.ignored
        (env.commits.treeOf (pruneBase env w name wt)) (env.commits.treeOf wt.head) wt := by
    rw [← pairs_empty_iff (env.metadata wt.disk).isOk_of_onDisk, foundEmpty,
      healedWorld_workspaces, hlookup]
    simp only [Option.any_some, DestroyEnv.snapshotIsEmpty, hepoch, hworkspace, pruneBase,
      Bool.and_eq_true, decide_eq_true_eq]
  rw [doomed, LooksEmpty]
  split_ifs with hboth
  · rw [List.mem_filter, hempty]
    simp only [mem_tracked hlookup, hboth, true_and]
  · refine iff_of_false List.not_mem_nil fun h => hboth ⟨h.1, h.2.1⟩

theorem lookedAt_workspaces : (lookedAt env includeEmpty w).workspaces = w.workspaces := by
  rw [lookedAt]
  split_ifs
  · rw [refreshedWorld_workspaces, healedWorld_workspaces]
  · rw [healedWorld_workspaces]

/-- What a prune has written when it has looked at the workspaces. -/
theorem lookup_lookedAt_of_ne {key : RefKey} (hepoch : ∀ name, key ≠ .wsEpoch name)
    (hstate : ∀ name, key ≠ .wsState name) :
    (lookedAt env includeEmpty w).refs.lookup key = w.refs.lookup key := by
  rw [lookedAt]
  split_ifs
  · rw [lookup_refreshedWorld_of_ne fun name _ => hstate name,
      lookup_healedWorld_of_ne fun name _ => hepoch name]
  · rw [lookup_healedWorld_of_ne fun name _ => hepoch name]

theorem lookup_lookedAt_wsEpoch (hlookup : w.workspaces.lookup name = some wt) :
    (lookedAt env includeEmpty w).refs.lookup (.wsEpoch name) =
      (env.healed w name wt).epochRef := by
  have hhealed : (healedWorld env w (tracked w)).refs.lookup (.wsEpoch name) =
      (env.healed w name wt).epochRef :=
    lookup_healedWorld nodup_tracked (mem_tracked hlookup) hlookup
  rw [lookedAt]
  split_ifs
  · rw [lookup_refreshedWorld_of_ne fun _ _ h => by cases h]
    exact hhealed
  · exact hhealed

theorem lookup_lookedAt_wsState (hlookup : w.workspaces.lookup name = some wt) :
    (lookedAt env includeEmpty w).refs.lookup (.wsState name) =
      if includeEmpty = true ∧ name ≠ env.defaultWorkspace ∧ env.gitCompatRefs = true then
        some (env.stateCommit wt)
      else w.refs.lookup (.wsState name) := by
  have hkept : (healedWorld env w (tracked w)).refs.lookup (.wsState name) =
      w.refs.lookup (.wsState name) := lookup_healedWorld_of_ne fun _ _ h => by cases h
  rw [lookedAt]
  by_cases hinclude : includeEmpty = true
  · rw [if_pos hinclude, lookup_refreshedWorld (mem_tracked hlookup)
      (by rw [healedWorld_workspaces, hlookup]), hkept]
    simp only [hinclude, true_and]
  · rw [if_neg hinclude, if_neg fun h => hinclude h.1, hkept]

/-- When a prune is safe. -/
theorem prunesSafely_iff :
    PrunesSafely env force includeEmpty w ↔ PruneHeeds env force includeEmpty w := by
  refine forall_congr' fun name => forall_congr' fun wt => forall_congr' fun hlookup => ?_
  simp only [alone_prune, prunedWorld_workspaces, lookedAt_workspaces, ← mem_doomed_iff hlookup]
  have hreach : Reachable env (prunedWorld env (lookedAt env includeEmpty w)
      (doomed env force includeEmpty w)).refs wt.head ↔ Reachable env w.refs wt.head := by
    refine reachable_congr fun key hkey => ?_
    rw [lookup_prunedWorld, if_pos fun name _ => RefKey.not_ownedBy_of_keeps hkey]
    refine lookup_lookedAt_of_ne ?_ ?_
    · rintro other rfl
      cases hkey
    · rintro other rfl
      cases hkey
  split_ifs with hdoomed
  · have hfiles := content_of_netEmpty ((mem_doomed_iff hlookup).mp hdoomed).2.2.2
    simp only [hdoomed, hreach, forall_const, not_true_eq_false, false_implies, and_true, ne_eq]
    exact and_iff_left hfiles
  · have hkept (key : RefKey) (hkey : key.ownedBy name = true) :
        (prunedWorld env (lookedAt env includeEmpty w)
          (doomed env force includeEmpty w)).refs.lookup key =
            (lookedAt env includeEmpty w).refs.lookup key := by
      rw [lookup_prunedWorld, if_pos]
      intro other hother
      have hne : name ≠ other := by
        rintro rfl
        exact hdoomed hother
      cases key <;> simp_all [RefKey.ownedBy]
    simp only [hdoomed, hlookup, reduceCtorEq, ne_eq, not_false_eq_true, true_and, forall_const,
      false_implies]
    constructor
    · intro hsame
      have hepoch := hsame (.wsEpoch name) (decide_eq_true rfl)
      have hstate := hsame (.wsState name) (decide_eq_true rfl)
      rw [hkept (.wsEpoch name) (decide_eq_true rfl), lookup_lookedAt_wsEpoch hlookup]
        at hepoch
      rw [hkept (.wsState name) (decide_eq_true rfl), lookup_lookedAt_wsState hlookup]
        at hstate
      refine ⟨hepoch, fun hasked => ?_⟩
      rw [← hstate, if_pos hasked]
    · rintro ⟨hepoch, hstate⟩ key hkey
      rw [hkept key hkey]
      cases key with
      | wsEpoch other =>
        obtain rfl : other = name := of_decide_eq_true hkey
        rw [lookup_lookedAt_wsEpoch hlookup, hepoch]
      | wsState other =>
        obtain rfl : other = name := of_decide_eq_true hkey
        rw [lookup_lookedAt_wsState hlookup]
        split_ifs with hasked
        · exact (hstate hasked).symm
        · rfl
      | opHead other => exact lookup_lookedAt_of_ne (fun _ h => by cases h) fun _ h => by cases h
      | branch _ | recovery _ _ | epochCurrent => cases hkey

end Prune

end Maw.PlainDestroy
