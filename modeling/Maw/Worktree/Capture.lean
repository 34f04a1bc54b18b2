import Maw.Core.Refs
import Maw.Library.Interleaved
import Maw.Worktree.Staging

/-!
# Capturing a workspace before it is destroyed

A workspace that is about to be destroyed is captured under a recovery ref: its HEAD if its files
are clean, and else a commit of its staged files on top of HEAD. Embedded repositories that git
refuses to stage are left out. When nothing else is dirty, nothing is captured, not even a HEAD
that has left the base epoch.

## Main definitions

* `CaptureOp`, `CaptureOp.exec` — the operations and what they do.
* `captureBeforeDestroy` — the capture.
* `Captures` — what a capture is to keep.

## Main results

* `captureBeforeDestroy_captures_iff` — when it does.
-/

open Interleaved

namespace Maw

inductive CaptureMode
  | worktreeCapture
  | headOnly
  deriving DecidableEq, Repr

structure CaptureResult where
  commitOid : GitOid
  pinnedRef : String
  dirtyPaths : List Path
  mode : CaptureMode
  deriving DecidableEq

inductive CaptureError
  | git
  | addFailed
  | silentDataLoss
  deriving DecidableEq, Repr

/-- The refs, the commits and the workspace. -/
structure CaptureWorld where
  refs : RefStore
  commits : CommitStore
  worktree : Worktree

namespace CaptureWorld

/-- The tree of the HEAD of the workspace. -/
def headTree (w : CaptureWorld) : GitTree := w.commits.treeOf w.worktree.head

/-- The workspace with another index. -/
def withIndex (w : CaptureWorld) (index : GitTree) : CaptureWorld :=
  { w with worktree := { w.worktree with index } }

end CaptureWorld

inductive CaptureOp
  | listDirtyPaths
  | resolveHead
  | gitAddAll (excluded : List Path)
  | stashCreate
  | unstageAll
  | recoveryRef
  | writeRef (name : String) (oid : GitOid)

namespace CaptureOp

/-- What an operation returns; `git add` returns the paths that it reports as refused when it
fails. -/
abbrev Ret : CaptureOp → Type
  | listDirtyPaths => List Path
  | resolveHead => GitOid
  | gitAddAll _ => Option (List Path)
  | stashCreate => Option GitOid
  | unstageAll => Unit
  | recoveryRef => String
  | writeRef _ _ => Unit

/-- What an operation does; an operation that fails changes nothing. -/
def exec (ignored : Disk → Path → Bool) :
    (op : CaptureOp) → CaptureWorld → Except CaptureError op.Ret → CaptureWorld → Prop
  | listDirtyPaths, w, r, w' => w' = w ∧
    (r = .error .git ∨
      r = .ok ((w.worktree.statusHeadToWorktree ignored w.headTree).map Prod.fst))
  | resolveHead, w, r, w' => w' = w ∧ (r = .error .git ∨ r = .ok w.worktree.head)
  | gitAddAll excluded, w, r, w' =>
    (r = .error .git ∧ w' = w) ∨
    (r = .ok none ∧ w' = w.withIndex (w.worktree.stagedIndex ignored excluded) ∧
      ∀ p, w.worktree.Refused ignored p → CoveredBy excluded p) ∨
    ∃ reported, r = .ok (some reported) ∧ w' = w ∧ ∀ p ∈ reported, w.worktree.Refused ignored p
  | stashCreate, w, r, w' =>
    (r = .error .git ∧ w' = w) ∨
    (r = .ok none ∧ w' = w ∧ w.worktree.isDirty ignored w.headTree = false) ∨
    w.worktree.isDirty ignored w.headTree = true ∧ ∃ indexOid stashOid indexed stashed,
      w.commits.Adds indexOid ⟨writeIndexTree w.worktree.index, [w.worktree.head],
        writeIndexTree_prefixFree _⟩ indexed ∧
      NodeStore.Adds indexed stashOid ⟨writeIndexTree w.worktree.index,
        [w.worktree.head, indexOid], writeIndexTree_prefixFree _⟩ stashed ∧
      r = .ok (some stashOid) ∧ w' = { w with commits := stashed }
  | unstageAll, w, r, w' =>
    (r = .error .git ∧ w' = w) ∨ (r = .ok () ∧ w' = w.withIndex w.headTree)
  | recoveryRef, w, r, w' => w' = w ∧ ∃ name, r = .ok name
  | writeRef name oid, w, r, w' =>
    (r = .error .git ∧ w' = w) ∨ (r = .ok () ∧ w' = { w with refs := w.refs.insert name oid })

end CaptureOp

/-- Programs that capture a workspace. -/
abbrev CaptureProg := Fallible CaptureError CaptureOp CaptureOp.Ret

open CaptureOp

/-- Reset the index and go on if that fails. -/
def warnOnResetFailure : CaptureProg Unit := ignoreError (attempt unstageAll)

/-- Pin the HEAD of a clean workspace. -/
def pinHeadOnly (headOid : GitOid) : CaptureProg (Option CaptureResult) := do
  let refName ← attempt recoveryRef
  attempt (writeRef refName headOid)
  pure (some ⟨headOid, refName, [], .headOnly⟩)

/-- Stage everything, once more without the paths that git refuses. -/
def stageAllForCapture : CaptureProg (List Path) := do
  match ← attempt (gitAddAll []) with
  | none => pure []
  | some excludedPaths =>
    if excludedPaths = [] then throw .addFailed
    else
      match ← attempt (gitAddAll excludedPaths) with
      | none => pure excludedPaths
      | some _ => throw .addFailed

/-- Commit the staged files and pin them. -/
def captureDirtyWorktree (dirtyPaths : List Path) : CaptureProg (Option CaptureResult) := do
  let excludedPaths ← stageAllForCapture
  let stashResult ← onError (attempt stashCreate) warnOnResetFailure
  let capturableDirtyPaths := dirtyPaths.filter fun p => !excludedPaths.any (pathIsUnderExcluded p)
  match stashResult with
  | none => do
    warnOnResetFailure
    if capturableDirtyPaths = [] then pure none else throw .silentDataLoss
  | some commitOid => do
    warnOnResetFailure
    let refName ← attempt recoveryRef
    attempt (writeRef refName commitOid)
    pure (some ⟨commitOid, refName, capturableDirtyPaths, .worktreeCapture⟩)

/-- Capture a workspace that is about to be destroyed. -/
def captureBeforeDestroy (baseEpoch : GitOid) : CaptureProg (Option CaptureResult) := do
  let dirtyPaths ← attempt listDirtyPaths
  if dirtyPaths = [] then do
    let headOid ← attempt resolveHead
    if headOid = baseEpoch then pure none else pinHeadOnly headOid
  else captureDirtyWorktree dirtyPaths

/-! ### What a capture keeps -/

/-- HEAD is at the base epoch or below the pinned commit, every dirty path outside the refused
repositories is in the pinned commit as it is on disk, and if nothing is pinned there is nothing
to keep. -/
structure Captures (ignored : Disk → Path → Bool) (baseEpoch : GitOid) (w : CaptureWorld)
    (result : Option CaptureResult) (w' : CaptureWorld) : Prop where
  pinned : ∀ res, result = some res → w'.refs.lookup res.pinnedRef = some res.commitOid
  head : w.worktree.head = baseEpoch ∨
    ∃ res, result = some res ∧ w'.commits.IsAncestor w.worktree.head res.commitOid
  dirty : ∀ p, w.worktree.statusAt ignored w.headTree p ≠ none →
    ¬ CoveredBy (w.worktree.refusedPaths ignored) p → ∃ res, result = some res ∧
      (w'.commits.treeOf res.commitOid).lookup p = w.worktree.content ignored p

/-- HEAD is at the base epoch, or the files are clean, or some dirty path is outside the refused
repositories, or staging everything else makes the index differ from the commit or the disk. -/
def PinsHead (ignored : Disk → Path → Bool) (baseEpoch : GitOid) (w : CaptureWorld) : Prop :=
  w.worktree.head = baseEpoch ∨ w.worktree.statusHeadToWorktree ignored w.headTree = [] ∨
    (∃ x ∈ w.worktree.statusHeadToWorktree ignored w.headTree,
      ¬ CoveredBy (w.worktree.refusedPaths ignored) x.1) ∨
    ({ w.worktree with
      index := w.worktree.stagedIndex ignored (w.worktree.refusedPaths ignored) }).isDirty ignored
        w.headTree = true

variable {ignored : Disk → Path → Bool} {w w' : CaptureWorld} {baseEpoch : GitOid}
  {result : Option CaptureResult}

theorem returns_warnOnResetFailure {u : Unit}
    (h : Returns (CaptureOp.exec ignored) warnOnResetFailure w u w') :
    w'.refs = w.refs ∧ w'.commits = w.commits := by
  obtain ⟨r, hrun⟩ := returns_ignoreError.mp h
  rw [run_attempt, runs_call_iff] at hrun
  rcases hrun with ⟨heq, -⟩ | ⟨_, w₁, hexec, hrun⟩ | ⟨e, hexec, -⟩
  · cases heq
  · obtain ⟨-, rfl⟩ := runs_done hrun
    rcases hexec with ⟨-, rfl⟩ | ⟨-, rfl⟩ <;> exact ⟨rfl, rfl⟩
  · rcases hexec with ⟨-, rfl⟩ | ⟨-, rfl⟩ <;> exact ⟨rfl, rfl⟩

/-- Staging leaves out the refused repositories and nothing else. -/
theorem returns_stageAllForCapture {excluded : List Path}
    (h : Returns (CaptureOp.exec ignored) stageAllForCapture w excluded w') :
    w' = w.withIndex (w.worktree.stagedIndex ignored excluded) ∧
      (∀ p ∈ excluded, w.worktree.Refused ignored p) ∧
      ∀ p, w.worktree.Refused ignored p → CoveredBy excluded p := by
  obtain ⟨first, w₁, hfirst, h⟩ := returns_bind.mp h
  rcases returns_attempt.mp hfirst with ⟨heq, -⟩ | ⟨heq, rfl, hcovered⟩ | ⟨reported, heq, rfl, hrefused⟩
  · cases heq
  · obtain rfl := Except.ok.inj heq
    obtain ⟨rfl, rfl⟩ := returns_pure.mp h
    exact ⟨rfl, fun p hp => absurd hp List.not_mem_nil, hcovered⟩
  · obtain rfl := Except.ok.inj heq
    simp only at h
    split_ifs at h
    · exact absurd h not_returns_throw
    obtain ⟨second, w₂, hsecond, h⟩ := returns_bind.mp h
    rcases returns_attempt.mp hsecond with ⟨heq, -⟩ | ⟨heq, rfl, hcovered⟩ | ⟨_, heq, -, -⟩
    · cases heq
    · obtain rfl := Except.ok.inj heq
      obtain ⟨rfl, rfl⟩ := returns_pure.mp h
      exact ⟨rfl, hrefused, hcovered⟩
    · obtain rfl := Except.ok.inj heq
      exact absurd h not_returns_throw

/-- A capture of clean files keeps HEAD. -/
theorem captures_of_clean
    (hclean : w.worktree.statusHeadToWorktree ignored w.headTree = [])
    (h : Returns (CaptureOp.exec ignored) (do
      let headOid ← attempt resolveHead
      if headOid = baseEpoch then pure none else pinHeadOnly headOid) w result w') :
    Captures ignored baseEpoch w result w' := by
  have hnone (p : Path) : w.worktree.statusAt ignored w.headTree p = none := by
    rcases hstatus : w.worktree.statusAt ignored w.headTree p with _ | status
    · rfl
    · have hmem := Worktree.mem_status.mpr hstatus
      rw [hclean] at hmem
      exact absurd hmem List.not_mem_nil
  obtain ⟨headOid, w₁, hresolve, h⟩ := returns_bind.mp h
  rcases returns_attempt.mp hresolve with ⟨rfl, heq | heq⟩
  · cases heq
  obtain rfl := Except.ok.inj heq
  split_ifs at h with hbase
  · obtain ⟨rfl, rfl⟩ := returns_pure.mp h
    exact ⟨fun _ h => absurd h (by simp), .inl hbase, fun p hp => absurd (hnone p) hp⟩
  · obtain ⟨refName, w₂, hname, h⟩ := returns_bind.mp h
    obtain ⟨_, w₃, hwrite, h⟩ := returns_bind.mp h
    obtain ⟨rfl, -⟩ := returns_attempt.mp hname
    obtain ⟨rfl, rfl⟩ := returns_pure.mp h
    rcases returns_attempt.mp hwrite with ⟨heq, -⟩ | ⟨-, rfl⟩
    · cases heq
    refine ⟨?_, .inr ⟨_, rfl, .refl _⟩, fun p hp => absurd (hnone p) hp⟩
    rintro res hres
    obtain rfl := Option.some.inj hres
    exact Finmap.lookup_insert _

/-- The captured commit is on top of HEAD and has what was staged. -/
theorem captures_of_stash {excluded : List Path} {stashOid indexOid : GitOid}
    {indexed stashed : CommitStore} {refName : String} {dirtyPaths : List Path}
    (hindex : TreePrefixFree w.worktree.index)
    (hrefused : ∀ p ∈ excluded, w.worktree.Refused ignored p)
    (hcovered : ∀ p, w.worktree.Refused ignored p → CoveredBy excluded p)
    (hstashed : NodeStore.Adds indexed stashOid
      ⟨writeIndexTree (w.worktree.stagedIndex ignored excluded), [w.worktree.head, indexOid],
        writeIndexTree_prefixFree _⟩ stashed)
    (hcommits : w'.commits = stashed) (hrefs : w'.refs.lookup refName = some stashOid) :
    Captures ignored baseEpoch w
      (some ⟨stashOid, refName, dirtyPaths, .worktreeCapture⟩) w' := by
  refine ⟨?_, .inr ⟨_, rfl, ?_⟩, fun p _ hp => ⟨_, rfl, ?_⟩⟩
  · rintro res hres
    obtain rfl := Option.some.inj hres
    exact hrefs
  · rw [hcommits]
    exact (hstashed.parentOf_self List.mem_cons_self).isAncestor
  · have hprefix : TreePrefixFree (w.worktree.stagedIndex ignored excluded) :=
      Worktree.stagedIndex_prefixFree hindex fun e he => by simp [(hrefused e he).1]
    rw [hcommits, CommitStore.treeOf_adds hstashed, lookup_writeIndexTree hprefix,
      Worktree.lookup_stagedIndex,
      if_neg ((Worktree.coveredBy_iff hrefused hcovered).not.mpr hp)]
    rcases hcontent : w.worktree.content ignored p with _ | e
    · rfl
    · rw [Option.filter_some, if_pos (by simpa using Worktree.mode_of_content hcontent)]

/-- A capture that returns has kept what the workspace holds exactly when HEAD is at the base
epoch, or the files are clean, or there is something to capture besides the refused
repositories. -/
theorem captureBeforeDestroy_captures_iff (hindex : TreePrefixFree w.worktree.index)
    (h : Returns (CaptureOp.exec ignored) (captureBeforeDestroy baseEpoch) w result w') :
    Captures ignored baseEpoch w result w' ↔ PinsHead ignored baseEpoch w := by
  obtain ⟨dirtyPaths, w₁, hlist, h⟩ := returns_bind.mp h
  rcases returns_attempt.mp hlist with ⟨rfl, heq | heq⟩
  · cases heq
  obtain rfl := Except.ok.inj heq
  split_ifs at h with hclean
  · rw [List.map_eq_nil_iff] at hclean
    exact iff_of_true (captures_of_clean hclean h) (.inr (.inl hclean))
  obtain ⟨excluded, w₂, hstage, h⟩ := returns_bind.mp h
  obtain ⟨rfl, hrefused, hcovered⟩ := returns_stageAllForCapture hstage
  obtain ⟨stash, w₃, hstash, h⟩ := returns_bind.mp h
  rw [returns_onError, returns_attempt] at hstash
  rcases hstash with ⟨heq, -⟩ | ⟨heq, rfl, hdirty⟩ |
    ⟨hdirty, indexOid, stashOid, indexed, stashed, -, hstashed, heq, rfl⟩
  · cases heq
  · -- Nothing was staged: what is dirty has been left out.
    obtain rfl := Except.ok.inj heq
    obtain ⟨_, w₄, hwarn, h⟩ := returns_bind.mp h
    split_ifs at h with hcapturable
    · obtain ⟨rfl, rfl⟩ := returns_pure.mp h
      have hall (x) (hx : x ∈ w₁.worktree.statusHeadToWorktree ignored w₁.headTree) :
          CoveredBy (w₁.worktree.refusedPaths ignored) x.1 := by
        rw [List.filter_eq_nil_iff] at hcapturable
        have hx' := hcapturable x.1 (List.mem_map_of_mem hx)
        rw [Bool.not_eq_true', Bool.not_eq_false, any_pathIsUnderExcluded] at hx'
        exact (Worktree.coveredBy_iff hrefused hcovered).mp hx'
      rw [Worktree.stagedIndex_eq hrefused hcovered] at hdirty
      constructor
      · rintro ⟨-, hbase | ⟨res, hres, -⟩, -⟩
        · exact .inl hbase
        · cases hres
      · rintro (hbase | hnil | ⟨x, hx, hnot⟩ | hstaged)
        · refine ⟨fun _ h => absurd h (by simp), .inl hbase, fun p hp hnot => ?_⟩
          obtain ⟨status, hstatus⟩ := Option.ne_none_iff_exists'.mp hp
          exact absurd (hall _ (Worktree.mem_status.mpr hstatus)) hnot
        · exact absurd (List.map_eq_nil_iff.mpr hnil) hclean
        · exact absurd (hall x hx) hnot
        · exact absurd (hstaged.symm.trans hdirty) (by simp)
    · exact absurd h not_returns_throw
  · obtain rfl := Except.ok.inj heq
    obtain ⟨_, w₄, hwarn, h⟩ := returns_bind.mp h
    obtain ⟨refName, w₅, hname, h⟩ := returns_bind.mp h
    obtain ⟨_, w₆, hwrite, h⟩ := returns_bind.mp h
    obtain ⟨rfl, rfl⟩ := returns_pure.mp h
    obtain ⟨-, hkeep⟩ := returns_warnOnResetFailure hwarn
    obtain ⟨rfl, -⟩ := returns_attempt.mp hname
    rcases returns_attempt.mp hwrite with ⟨heq, -⟩ | ⟨-, rfl⟩
    · cases heq
    refine iff_of_true ?_ (.inr (.inr (.inr ?_)))
    · exact captures_of_stash hindex hrefused hcovered hstashed hkeep
        (Finmap.lookup_insert _)
    · rw [← Worktree.stagedIndex_eq hrefused hcovered]
      exact hdirty

/-! ### Two workspaces that are one commit ahead -/

section Samples

/-- A workspace with clean files. -/
private def cleanAhead : CaptureWorld :=
  ⟨∅, sampleCommits, ⟨sampleBlob 2, oneFileTree 10, sampleDisk 10⟩⟩

theorem captureBeforeDestroy_cleanAhead : ∃ result w',
    Returns (CaptureOp.exec noneIgnored) (captureBeforeDestroy (sampleBlob 1)) cleanAhead result w' ∧
      (Captures noneIgnored (sampleBlob 1) cleanAhead result w' ↔
        PinsHead noneIgnored (sampleBlob 1) cleanAhead) := by
  have hclean : (cleanAhead.worktree.statusHeadToWorktree noneIgnored cleanAhead.headTree).map
      Prod.fst = [] := by decide +kernel
  have hpin : Returns (CaptureOp.exec noneIgnored) (pinHeadOnly (sampleBlob 2)) cleanAhead
      (some ⟨sampleBlob 2, "refs/manifold/recovery/ws/1", [], .headOnly⟩)
      { cleanAhead with
        refs := (∅ : RefStore).insert "refs/manifold/recovery/ws/1" (sampleBlob 2) } :=
    returns_bind.mpr ⟨_, _, returns_attempt.mpr ⟨rfl, _, rfl⟩, returns_bind.mpr
      ⟨_, _, returns_attempt.mpr (.inr ⟨rfl, rfl⟩), returns_pure.mpr ⟨rfl, rfl⟩⟩⟩
  have hrun : Returns (CaptureOp.exec noneIgnored) (captureBeforeDestroy (sampleBlob 1)) cleanAhead
      (some ⟨sampleBlob 2, "refs/manifold/recovery/ws/1", [], .headOnly⟩)
      { cleanAhead with
        refs := (∅ : RefStore).insert "refs/manifold/recovery/ws/1" (sampleBlob 2) } := by
    refine returns_bind.mpr ⟨_, _, returns_attempt.mpr ⟨rfl, .inr rfl⟩, ?_⟩
    rw [if_pos hclean]
    refine returns_bind.mpr ⟨_, _, returns_attempt.mpr ⟨rfl, .inr rfl⟩, ?_⟩
    rw [if_neg (by decide)]
    exact hpin
  exact ⟨_, _, hrun, captureBeforeDestroy_captures_iff (oneFileTree_prefixFree 10) hrun⟩

/-- An empty embedded repository. -/
private def embedded : Path := ⟨[Component.lit "vendor"], by decide⟩

private def embeddedDisk : Disk where
  occupants := (Finmap.singleton samplePath (Occupant.regular (sampleBlob 10)) :
    FiniteMap Path Occupant).insert embedded (.repository none)
  prefixFree := by
    have hkeys (p : Path) (hp : ((Finmap.singleton samplePath (Occupant.regular (sampleBlob 10)) :
        FiniteMap Path Occupant).insert embedded (.repository none)).lookup p ≠ none) :
        p = embedded ∨ p = samplePath := by
      simpa [Finmap.lookup_eq_none, or_iff_not_imp_left] using hp
    rintro p hp q hq
    rcases hkeys p hp with rfl | rfl <;> rcases hkeys q hq with rfl | rfl <;> decide

/-- A workspace in which only an embedded repository is dirty. -/
private def embeddedAhead : CaptureWorld :=
  ⟨∅, sampleCommits, ⟨sampleBlob 2, oneFileTree 10, embeddedDisk⟩⟩

/-- With a refused repository and nothing else dirty, the commits of the workspace are not
pinned. -/
theorem capture_loses_head : ¬ ∀ baseEpoch w result w', TreePrefixFree w.worktree.index →
    Returns (CaptureOp.exec noneIgnored) (captureBeforeDestroy baseEpoch) w result w' →
      Captures noneIgnored baseEpoch w result w' := by
  intro h
  have hdirty : (embeddedAhead.worktree.statusHeadToWorktree noneIgnored
      embeddedAhead.headTree).map Prod.fst = [embedded] := by decide +kernel
  have hrefused : embeddedAhead.worktree.Refused noneIgnored embedded := by decide +kernel
  have honly (p : Path) (hp : embeddedAhead.worktree.Refused noneIgnored p) :
      CoveredBy [embedded] p := by
    refine ⟨embedded, List.mem_cons_self, .inl (by_contra fun hne => ?_)⟩
    have hlookup := hp.1
    rw [embeddedAhead, embeddedDisk, FiniteMap.lookup_insert, if_neg hne] at hlookup
    by_cases hsample : p = samplePath
    · rw [hsample, Finmap.lookup_singleton_eq] at hlookup
      cases hlookup
    · rw [Finmap.lookup_eq_none.mpr (by simpa using hsample)] at hlookup
      cases hlookup
  let staged : CaptureWorld :=
    embeddedAhead.withIndex (embeddedAhead.worktree.stagedIndex noneIgnored [embedded])
  have hclean : staged.worktree.isDirty noneIgnored staged.headTree = false := by decide +kernel
  have hstage : Returns (CaptureOp.exec noneIgnored) stageAllForCapture embeddedAhead [embedded]
      staged := by
    refine returns_bind.mpr ⟨some [embedded], embeddedAhead, returns_attempt.mpr ?_, ?_⟩
    · exact .inr (.inr ⟨[embedded], rfl, rfl, fun p hp => List.mem_singleton.mp hp ▸ hrefused⟩)
    · refine returns_bind.mpr ⟨none, staged, returns_attempt.mpr ?_, returns_pure.mpr ⟨rfl, rfl⟩⟩
      exact .inr (.inl ⟨rfl, rfl, honly⟩)
  have hwarn : Returns (CaptureOp.exec noneIgnored) warnOnResetFailure staged ()
      (staged.withIndex staged.headTree) :=
    returns_ignoreError.mpr ⟨.ok (), returns_attempt.mpr (.inr ⟨rfl, rfl⟩)⟩
  have hcapture : Returns (CaptureOp.exec noneIgnored) (captureDirtyWorktree [embedded])
      embeddedAhead none (staged.withIndex staged.headTree) := by
    refine returns_bind.mpr ⟨_, _, hstage, returns_bind.mpr ⟨none, staged, ?_, ?_⟩⟩
    · exact returns_onError.mpr (returns_attempt.mpr (.inr (.inl ⟨rfl, rfl, hclean⟩)))
    · exact returns_bind.mpr ⟨_, _, hwarn, returns_pure.mpr ⟨rfl, rfl⟩⟩
  have hrun : Returns (CaptureOp.exec noneIgnored) (captureBeforeDestroy (sampleBlob 1))
      embeddedAhead none (staged.withIndex staged.headTree) := by
    refine returns_bind.mpr ⟨_, _, returns_attempt.mpr ⟨rfl, .inr rfl⟩, ?_⟩
    rw [hdirty]
    exact hcapture
  rcases (h _ _ _ _ (oneFileTree_prefixFree 10) hrun).head with hhead | ⟨res, hres, -⟩
  · exact absurd hhead (by decide)
  · cases hres

end Samples

end Maw
