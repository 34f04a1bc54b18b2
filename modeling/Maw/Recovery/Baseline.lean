import Maw.Recovery.EpochMoves

/-!
# The baseline of the default workspace

The default workspace is the working copy of the configured branch, so that its baseline has to be
the current epoch. Each operation that moves the epoch has to move the baseline as well. The
creation of a workspace, the promotion of a quarantine and a pull do not; an undo moves the
baseline of the workspace that is called `default`.

## Main definitions

* `Follows` — the baseline is the epoch.
* `Restores` — when an operation restores that.
* `Steps` — operations that succeed one after another.

## Main results

* `follows_exactly_if_restored` — after an operation the baseline is the epoch exactly when the
  operation restores that, and in runs of such operations always.
* `not_follows` — after a commit of the user, the creation of a workspace moves the epoch alone.
-/

open Interleaved

namespace Maw.EpochMoves

/-! ### Names of refs -/

theorem List.append_ne_of_zip {α : Type} {a b : List α} (x y : List α)
    (h : ∃ p ∈ a.zip b, p.1 ≠ p.2) : a ++ x ≠ b ++ y := by
  obtain ⟨p, hp, hne⟩ := h
  induction a generalizing b with
  | nil => exact absurd hp (by simp)
  | cons c a ih =>
    cases b with
    | nil => exact absurd hp (by simp)
    | cons d b =>
      intro heq
      obtain ⟨rfl, htail⟩ := List.cons.inj heq
      rcases List.mem_cons.mp hp with rfl | hp
      · exact hne rfl
      · exact ih hp htail

/-- Texts that begin differently differ. -/
theorem append_ne {a b : String} (x y : String)
    (h : ((a.toList.zip b.toList).any fun p => p.1 ≠ p.2) = true) : a ++ x ≠ b ++ y := by
  intro heq
  have hlist := congrArg String.toList heq
  rw [String.toList_append, String.toList_append] at hlist
  obtain ⟨p, hp, hne⟩ := List.any_eq_true.mp h
  exact List.append_ne_of_zip _ _ ⟨p, hp, of_decide_eq_true hne⟩ hlist

theorem workspaceEpochRef_ne_epochCurrent (ws : String) : workspaceEpochRef ws ≠ epochCurrent := by
  have h := @append_ne "refs/manifold/epoch/ws/" epochCurrent ws "" (by decide +kernel)
  rwa [String.append_empty] at h

theorem workspaceEpochRef_ne_branchRef (ws branch : String) :
    workspaceEpochRef ws ≠ branchRef branch :=
  append_ne ws branch (by decide +kernel)

theorem workspaceEpochRef_ne_remoteEpoch (ws : String) : workspaceEpochRef ws ≠ remoteEpoch := by
  have h := @append_ne "refs/manifold/epoch/ws/" remoteEpoch ws "" (by decide +kernel)
  rwa [String.append_empty] at h

theorem workspaceEpochRef_injective : Function.Injective workspaceEpochRef :=
  fun _ _ h => (String.append_right_inj _).mp h

theorem remoteEpoch_ne_epochCurrent : remoteEpoch ≠ epochCurrent := by
  have h := @append_ne remoteEpoch epochCurrent "" "" (by decide +kernel)
  rwa [String.append_empty, String.append_empty] at h

/-! ### What the calls return -/

section Calls

variable {env : EpochEnv} {config : MawConfig} {s s' : EpochState} {name ws : String}
  {oid : GitOid}

theorem returns_reads {α : Type} {a : α} {P : α → Prop} :
    EpochOp.Reads s s' (.ok a) P ↔ s' = s ∧ P a := by
  simp [EpochOp.Reads]

theorem returns_otherStep {u : Unit}
    (h : Returns (EpochOp.exec env) (attempt EpochOp.otherStep) s u s') : s' = s :=
  (returns_reads.mp (returns_attempt.mp h)).1

theorem returns_readRef {o : Option GitOid}
    (h : Returns (EpochOp.exec env) (attempt (EpochOp.readRef name)) s o s') :
    s' = s ∧ env.readable name = true ∧ o = s.refs.lookup name := by
  obtain ⟨rfl, hr⟩ := returns_attempt.mp h
  split_ifs at hr with hreadable
  exact ⟨rfl, hreadable, Except.ok.inj hr⟩

/-- What a read gives whose failures are passed over. -/
def readOr (env : EpochEnv) (s : EpochState) (name : String) : Option GitOid :=
  if env.readable name then s.refs.lookup name else none

theorem returns_asOption_readRef {o : Option (Option GitOid)}
    (h : Returns (EpochOp.exec env) (asOption (attempt (EpochOp.readRef name))) s o s') :
    s' = s ∧ o.join = readOr env s name := by
  obtain ⟨r, hrun, rfl⟩ := returns_asOption.mp h
  obtain ⟨rfl, rfl⟩ := runs_attempt_done.mp hrun
  refine ⟨rfl, ?_⟩
  rw [readOr]
  split_ifs
  · rfl
  · rfl

theorem returns_writeRef {u : Unit}
    (h : Returns (EpochOp.exec env) (attempt (EpochOp.writeRef name oid)) s u s') :
    env.writable name = true ∧ s' = s.setRef name oid := by
  have hexec : EpochOp.Writes env name oid s s' (.ok u) := returns_attempt.mp h
  rw [EpochOp.Writes] at hexec
  split_ifs at hexec with hwritable
  · exact ⟨hwritable, hexec.2⟩
  · cases hexec.1

theorem returns_repairEpoch {basis : Basis} {u : Unit}
    (h : Returns (EpochOp.exec env) (attempt (EpochOp.repairEpoch basis oid)) s u s') :
    s' = s.setRef epochCurrent oid := by
  have hexec : EpochOp.Writes env epochCurrent oid s s' (.ok u) := returns_attempt.mp h
  rw [EpochOp.Writes] at hexec
  split_ifs at hexec
  · exact hexec.2
  · cases hexec.1

theorem returns_tryWriteRef {u : Unit}
    (h : Returns (EpochOp.exec env) (tryWriteRef name oid) s u s') :
    s' = if env.writable name then s.setRef name oid else s := by
  obtain ⟨r, hrun⟩ := returns_ignoreError.mp h
  have hexec : EpochOp.Writes env name oid s s' r := runs_attempt_done.mp hrun
  rw [EpochOp.Writes] at hexec
  split_ifs at hexec with hwritable
  · rw [if_pos hwritable, hexec.2]
  · rw [if_neg hwritable, hexec.2]

theorem returns_start {n : ℕ} (h : Returns (EpochOp.exec env) (attempt EpochOp.start) s n s') :
    s' = s :=
  (returns_attempt.mp h).1

theorem returns_updateRefsAtomic {edits : List RefEdit} {u : Unit}
    (h : Returns (EpochOp.exec env) (attempt (EpochOp.updateRefsAtomic edits)) s u s') :
    (∀ edit ∈ edits, s.refs.Matches edit.name edit.oldOid) ∧ s' = s.setRefs edits := by
  rcases returns_attempt.mp h with ⟨-, hmatches, hset⟩ | ⟨⟨e, he⟩, -⟩
  · exact ⟨hmatches, hset⟩
  · cases he

theorem returns_buildCommit {epoch branch : GitOid}
    (h : Returns (EpochOp.exec env) (attempt (EpochOp.buildCommit epoch branch)) s oid s') :
    s' = s ∧ ¬ env.commits.IsAncestor oid epoch ∧ ¬ env.commits.IsAncestor oid branch := by
  obtain ⟨rfl, ⟨oid', heq, hnew⟩ | ⟨e, he⟩⟩ := returns_attempt.mp h
  · rw [Except.ok.inj heq]
    exact ⟨rfl, hnew⟩
  · cases he

/-- A program under the lock. -/
theorem returns_withEpochLock {p : EpochProg Unit} {u : Unit}
    (h : Returns (EpochOp.exec env) (withEpochLock p) s u s') :
    ∃ s₁, Returns (EpochOp.exec env) p { s with locked := true } u s₁ ∧
      s' = { s₁ with locked := false } := by
  obtain ⟨u₀, s₀, hacquire, hrest⟩ := returns_bind.mp h
  rcases returns_attempt.mp hacquire with ⟨-, -, rfl⟩ | ⟨⟨e, he⟩, -⟩
  · obtain ⟨r, s₁, hp, hrelease⟩ := runs_bind_done.mp hrest
    obtain ⟨r', s₂, hrel, hdone⟩ := runs_bind_done.mp hrelease
    obtain ⟨heq, rfl⟩ := runs_done hdone
    obtain ⟨-, rfl⟩ := runs_attempt_done.mp hrel
    rw [← Prog.done.inj heq] at hp
    exact ⟨s₁, hp, rfl⟩
  · cases he

/-! ### The baseline and the epoch -/

/-- The baseline of the default workspace is the epoch. -/
def Follows (config : MawConfig) (s : EpochState) : Prop :=
  s.refs.lookup (workspaceEpochRef config.defaultWorkspace) = s.epoch

theorem epoch_setRef : (s.setRef epochCurrent oid).epoch = some oid := by
  rw [EpochState.epoch, EpochState.lookup_setRef, if_pos rfl]

theorem epoch_setRef_of_ne (h : name ≠ epochCurrent) : (s.setRef name oid).epoch = s.epoch := by
  rw [EpochState.epoch, EpochState.lookup_setRef, if_neg h.symm, EpochState.epoch]

/-- Only the epoch moves: the baseline no longer follows it, unless it was there before. -/
theorem follows_setRef_epoch (h : Follows config s) :
    Follows config (s.setRef epochCurrent oid) ↔ s.epoch = some oid := by
  rw [Follows, epoch_setRef, EpochState.lookup_setRef,
    if_neg (workspaceEpochRef_ne_epochCurrent _), h]

/-- The baseline moves to the epoch. -/
theorem follows_setRef_baseline (h : s.epoch = some oid) :
    Follows config (s.setRef (workspaceEpochRef config.defaultWorkspace) oid) := by
  rw [Follows, epoch_setRef_of_ne (workspaceEpochRef_ne_epochCurrent _), h,
    EpochState.lookup_setRef, if_pos rfl]

/-- Other refs do not matter. -/
theorem follows_setRef_of_ne (hepoch : name ≠ epochCurrent)
    (hbaseline : name ≠ workspaceEpochRef config.defaultWorkspace) :
    Follows config (s.setRef name oid) ↔ Follows config s := by
  rw [Follows, Follows, epoch_setRef_of_ne hepoch, EpochState.lookup_setRef,
    if_neg hbaseline.symm]

/-- The epoch moves and then the baseline, if it can be written. -/
theorem follows_tryWriteRef {u : Unit} (hfollows : Follows config s)
    (h : Returns (EpochOp.exec env)
      (tryWriteRef (workspaceEpochRef config.defaultWorkspace) oid) (s.setRef epochCurrent oid) u
      s') :
    Follows config s' ↔
      env.writable (workspaceEpochRef config.defaultWorkspace) = true ∨ s.epoch = some oid := by
  rw [returns_tryWriteRef h]
  split_ifs with hwritable
  · exact iff_of_true (follows_setRef_baseline epoch_setRef) (.inl hwritable)
  · rw [follows_setRef_epoch hfollows]
    exact (or_iff_right hwritable).symm

/-! ### The creation of a workspace, and epoch sync -/

/-- The epoch and the branch are read and differ. -/
def Resync (env : EpochEnv) (config : MawConfig) (s : EpochState) : Prop :=
  ∃ oid branchOid, readOr env s epochCurrent = some oid ∧
    readOr env s (branchRef config.branch) = some branchOid ∧ oid ≠ branchOid

theorem returns_resolveEpoch {revision : Bool}
    (h : Returns (EpochOp.exec env) (resolveEpoch config revision) s oid s') :
    (s' = s ∧ (revision = true ∨ ¬ Resync env config s)) ∨
      (revision = false ∧ ∃ old branchOid, readOr env s epochCurrent = some old ∧
        readOr env s (branchRef config.branch) = some branchOid ∧ old ≠ branchOid ∧
          s' = s.setRef epochCurrent branchOid) := by
  obtain ⟨since, s₁, hstart, hrest₁⟩ := returns_bind.mp h
  obtain rfl := returns_start hstart
  cases revision with
  | true =>
    obtain ⟨rfl, -⟩ := returns_reads.mp (returns_attempt.mp hrest₁)
    exact .inl ⟨rfl, .inl rfl⟩
  | false =>
    obtain ⟨o, s₂, hepoch, hrest₂⟩ := returns_bind.mp hrest₁
    obtain ⟨rfl, ho⟩ := returns_asOption_readRef hepoch
    cases hread : readOr env s₂ epochCurrent with
    | none =>
      have hnot : ¬ Resync env config s₂ := by
        rintro ⟨oid, branchOid, hoid, -⟩
        rw [hread] at hoid
        cases hoid
      rcases o with - | - | old
      · obtain ⟨rfl, -⟩ := returns_reads.mp (returns_attempt.mp hrest₂)
        exact .inl ⟨rfl, .inr hnot⟩
      · obtain ⟨rfl, -⟩ := returns_reads.mp (returns_attempt.mp hrest₂)
        exact .inl ⟨rfl, .inr hnot⟩
      · rw [hread] at ho
        cases ho
    | some old =>
      obtain rfl : o = some (some old) := by
        rw [hread] at ho
        rcases o with - | - | old'
        · cases ho
        · cases ho
        · rw [Option.some.inj ho]
      obtain ⟨b, s₃, hbranch, hrest₃⟩ := returns_bind.mp hrest₂
      obtain ⟨rfl, hb⟩ := returns_asOption_readRef hbranch
      rcases b with - | - | branchOid
      · obtain ⟨-, rfl⟩ := returns_pure.mp hrest₃
        refine .inl ⟨rfl, .inr ?_⟩
        rintro ⟨oid, branchOid, -, hbranchOid, -⟩
        rw [← hb] at hbranchOid
        cases hbranchOid
      · obtain ⟨-, rfl⟩ := returns_pure.mp hrest₃
        refine .inl ⟨rfl, .inr ?_⟩
        rintro ⟨oid, branchOid, -, hbranchOid, -⟩
        rw [← hb] at hbranchOid
        cases hbranchOid
      · dsimp only at hrest₃
        split_ifs at hrest₃ with hne
        · obtain ⟨u, s₄, hwrite, hrest₄⟩ := returns_bind.mp hrest₃
          obtain rfl := returns_repairEpoch hwrite
          obtain ⟨-, rfl⟩ := returns_pure.mp hrest₄
          exact .inr ⟨rfl, old, branchOid, rfl, hb.symm, hne, rfl⟩
        · obtain ⟨-, rfl⟩ := returns_pure.mp hrest₃
          refine .inl ⟨rfl, .inr ?_⟩
          rintro ⟨oid, branchOid', hoid, hbranchOid, hne'⟩
          rw [hread] at hoid
          rw [← hb] at hbranchOid
          obtain rfl := Option.some.inj hoid
          obtain rfl := Option.some.inj hbranchOid
          exact hne hne'

theorem epoch_of_readOr {old : GitOid} (h : readOr env s epochCurrent = some old) :
    s.epoch = some old := by
  rw [readOr] at h
  split_ifs at h
  exact h

theorem follows_resolveEpoch {revision : Bool} (hfollows : Follows config s)
    (h : Returns (EpochOp.exec env) (resolveEpoch config revision) s oid s') :
    Follows config s' ↔ revision = true ∨ ¬ Resync env config s := by
  rcases returns_resolveEpoch h with ⟨rfl, hcond⟩ |
    ⟨rfl, old, branchOid, hold, hbranch, hne, rfl⟩
  · exact iff_of_true hfollows hcond
  · rw [follows_setRef_epoch hfollows, epoch_of_readOr hold]
    refine iff_of_false (fun heq => hne (Option.some.inj heq)) ?_
    rintro (heq | hnot)
    · cases heq
    · exact hnot ⟨old, branchOid, hold, hbranch, hne⟩

theorem follows_epochSync {u : Unit} (hfollows : Follows config s)
    (h : Returns (EpochOp.exec env) (epochSync config) s u s') :
    Follows config s' ↔ env.writable (workspaceEpochRef config.defaultWorkspace) = true ∨
      s.epoch = s.refs.lookup (branchRef config.branch) := by
  obtain ⟨s₁, hbody, rfl⟩ := returns_withEpochLock h
  obtain ⟨u₁, s₂, hother, hrest₁⟩ := returns_bind.mp hbody
  obtain rfl := returns_otherStep hother
  obtain ⟨epoch, s₃, hepoch, hrest₂⟩ := returns_bind.mp hrest₁
  obtain ⟨rfl, -, hepochOid⟩ := returns_readRef hepoch
  cases epoch with
  | none => exact absurd hrest₂ not_returns_throw
  | some epochOid =>
    obtain ⟨branch, s₄, hbranch, hrest₃⟩ := returns_bind.mp hrest₂
    obtain ⟨rfl, -, hbranchOid⟩ := returns_readRef hbranch
    cases branch with
    | none => exact absurd hrest₃ not_returns_throw
    | some branchOid =>
      have hold : s.epoch = some epochOid := hepochOid.symm
      have hnew : s.refs.lookup (branchRef config.branch) = some branchOid := hbranchOid.symm
      rw [hold, hnew, Option.some.injEq]
      dsimp only at hrest₃
      split_ifs at hrest₃ with heq
      · obtain rfl := returns_otherStep hrest₃
        exact iff_of_true hfollows (.inr heq)
      · obtain ⟨u₂, s₅, hwrite, hrest₄⟩ := returns_bind.mp hrest₃
        obtain ⟨-, rfl⟩ := returns_writeRef hwrite
        obtain ⟨u₃, s₆, htry, hrest₅⟩ := returns_bind.mp hrest₄
        obtain rfl := returns_otherStep hrest₅
        have hlocked : Follows config { s with locked := true } := hfollows
        have hiff := follows_tryWriteRef hlocked htry
        have hepoch' : ({ s with locked := true } : EpochState).epoch = some epochOid := hold
        rw [hepoch', Option.some.injEq] at hiff
        exact hiff

/-! ### The repair by the doctor -/

/-- The branch is ahead of the epoch, and no workspace that can be read, but for the one called
`default`, has touched what differs. -/
def Advanceable (env : EpochEnv) (config : MawConfig) (s : EpochState) : Prop :=
  ∃ epochOid branchOid, s.epoch = some epochOid ∧
    s.refs.lookup (branchRef config.branch) = some branchOid ∧
    isStrictAncestor env epochOid branchOid = true ∧
    ∀ ws touched, s.workspaces.lookup ws = some touched → ws ≠ "default" →
      touched.readable = true → Disjoint touched.paths (ffPaths env epochOid branchOid)

theorem evaluateFfSafety_eq_safe_iff {paths : Finset Path} {touched : List WorkspaceTouchedPaths} :
    evaluateFfSafety paths touched = .safe ↔ ∀ ws ∈ touched, Disjoint ws.paths paths := by
  refine ⟨fun h ws hws => disjoint_of_evaluateFfSafety h hws, fun h => ?_⟩
  have hnone : (touched.filter fun ws => ¬ Disjoint ws.paths paths) = [] := by
    refine List.filter_eq_nil_iff.mpr fun ws hws hmeet => ?_
    exact of_decide_eq_true hmeet (h ws hws)
  rw [evaluateFfSafety, hnone]
  exact if_pos (.inr rfl)

/-- The workspaces that can be read are collected. -/
theorem mem_collectReadable {wss : List String} {touched : List WorkspaceTouchedPaths}
    (h : Returns (EpochOp.exec env) (collectReadable wss) s touched s') :
    s' = s ∧ ∀ w, w ∈ touched ↔ w.name ∈ wss ∧ w.name ≠ "default" ∧
      ∃ t, s.workspaces.lookup w.name = some t ∧ t.readable = true ∧ w.paths = t.paths := by
  induction wss generalizing s touched with
  | nil =>
    obtain ⟨rfl, rfl⟩ := returns_pure.mp h
    exact ⟨rfl, fun w => by simp⟩
  | cons ws wss ih =>
    rw [collectReadable] at h
    split_ifs at h with hdefault
    · obtain ⟨rfl, hmem⟩ := ih h
      refine ⟨rfl, fun w => ?_⟩
      rw [hmem w, List.mem_cons, hdefault]
      constructor
      · exact fun ⟨hws, hrest⟩ => ⟨.inr hws, hrest⟩
      · exact fun ⟨hws, hne, hrest⟩ => ⟨hws.resolve_left hne, hne, hrest⟩
    · obtain ⟨o, s₁, hread, hrest₁⟩ := returns_bind.mp h
      obtain ⟨r, hrun, rfl⟩ := returns_asOption.mp hread
      obtain ⟨rfl, rfl⟩ := runs_attempt_done.mp hrun
      -- What is read of the first workspace.
      have hskip (hnone : ∀ t, s₁.workspaces.lookup ws = some t → t.readable ≠ true)
          (hrest : Returns (EpochOp.exec env) (collectReadable wss) s₁ touched s') :
          s' = s₁ ∧ ∀ w, w ∈ touched ↔ w.name ∈ ws :: wss ∧ w.name ≠ "default" ∧
            ∃ t, s₁.workspaces.lookup w.name = some t ∧ t.readable = true ∧
              w.paths = t.paths := by
        obtain ⟨rfl, hmem⟩ := ih hrest
        refine ⟨rfl, fun w => ?_⟩
        rw [hmem w, List.mem_cons]
        constructor
        · exact fun ⟨hws, hrest⟩ => ⟨.inr hws, hrest⟩
        · rintro ⟨hws, hne, t, ht, hreadable, hpaths⟩
          refine ⟨hws.resolve_left fun heq => ?_, hne, t, ht, hreadable, hpaths⟩
          exact hnone t (heq ▸ ht) hreadable
      cases hlookup : s₁.workspaces.lookup ws with
      | none =>
        rw [hlookup] at hrest₁
        exact hskip (fun t ht => by rw [hlookup] at ht; cases ht) hrest₁
      | some t =>
        by_cases hreadable : t.readable = true
        · simp only [hlookup, if_pos hreadable] at hrest₁
          obtain ⟨rest, s₂, hcollect, hrest₂⟩ := returns_bind.mp hrest₁
          obtain ⟨rfl, rfl⟩ := returns_pure.mp hrest₂
          obtain ⟨rfl, hmem⟩ := ih hcollect
          refine ⟨rfl, fun w => ?_⟩
          rw [List.mem_cons, hmem w, List.mem_cons]
          constructor
          · rintro (rfl | ⟨hws, hrest⟩)
            · exact ⟨.inl rfl, hdefault, t, hlookup, hreadable, rfl⟩
            · exact ⟨.inr hws, hrest⟩
          · rintro ⟨hws, hne, t', ht', hreadable', hpaths⟩
            rcases hws with hws | hws
            · rw [hws, hlookup] at ht'
              obtain rfl := Option.some.inj ht'
              left
              obtain ⟨name, paths⟩ := w
              obtain rfl : name = ws := hws
              obtain rfl : paths = t.paths := hpaths
              rfl
            · exact .inr ⟨hws, hne, t', ht', hreadable', hpaths⟩
        · simp only [hlookup, if_neg hreadable] at hrest₁
          refine hskip (fun t' ht' => ?_) hrest₁
          rw [hlookup] at ht'
          rwa [← Option.some.inj ht']

theorem returns_classifyDrift {o : Option (EpochDriftKind × Drift)}
    (h : Returns (EpochOp.exec env) (classifyDrift env config) s o s') :
    s' = s ∧ ((∃ drift, o = some (.ffAbsorbable, drift)) ↔ Advanceable env config s) := by
  obtain ⟨epoch, s₁, hepoch, hrest₁⟩ := returns_bind.mp h
  obtain ⟨rfl, -, hepochOid⟩ := returns_readRef hepoch
  cases epoch with
  | none =>
    obtain ⟨rfl, rfl⟩ := returns_pure.mp hrest₁
    refine ⟨rfl, iff_of_false (by simp) ?_⟩
    rintro ⟨epochOid, branchOid, hsome, -⟩
    rw [EpochState.epoch, ← hepochOid] at hsome
    cases hsome
  | some epochOid =>
    obtain ⟨branch, s₂, hbranch, hrest₂⟩ := returns_bind.mp hrest₁
    obtain ⟨rfl, -, hbranchOid⟩ := returns_readRef hbranch
    cases branch with
    | none =>
      obtain ⟨rfl, rfl⟩ := returns_pure.mp hrest₂
      refine ⟨rfl, iff_of_false (by simp) ?_⟩
      rintro ⟨epochOid, branchOid, -, hsome, -⟩
      rw [← hbranchOid] at hsome
      cases hsome
    | some branchOid =>
      have hadvance : Advanceable env config s₂ ↔ isStrictAncestor env epochOid branchOid = true ∧
          ∀ ws touched, s₂.workspaces.lookup ws = some touched → ws ≠ "default" →
            touched.readable = true →
              Disjoint touched.paths (ffPaths env epochOid branchOid) := by
        constructor
        · rintro ⟨e, b, he, hb, hrest⟩
          rw [EpochState.epoch, ← hepochOid] at he
          rw [← hbranchOid] at hb
          obtain rfl := Option.some.inj he
          obtain rfl := Option.some.inj hb
          exact hrest
        · exact fun hrest => ⟨epochOid, branchOid, hepochOid.symm, hbranchOid.symm, hrest⟩
      rw [hadvance]
      dsimp only at hrest₂
      split_ifs at hrest₂ with heq hnot
      · obtain ⟨rfl, rfl⟩ := returns_pure.mp hrest₂
        refine ⟨rfl, iff_of_false (by simp) fun hstrict => ?_⟩
        rw [isStrictAncestor, heq] at hstrict
        simp at hstrict
      · obtain ⟨rfl, rfl⟩ := returns_pure.mp hrest₂
        refine ⟨rfl, iff_of_false (by simp) fun hstrict => ?_⟩
        rw [hnot] at hstrict
        cases hstrict.1
      · obtain ⟨wss, s₃, hlist, hrest₃⟩ := returns_bind.mp hrest₂
        obtain ⟨rfl, hwss⟩ := returns_reads.mp (returns_attempt.mp hlist)
        obtain ⟨touched, s₄, hcollect, hrest₄⟩ := returns_bind.mp hrest₃
        obtain ⟨rfl, hmem⟩ := mem_collectReadable hcollect
        have hsafe : evaluateFfSafety (ffPaths env epochOid branchOid) touched = .safe ↔
            ∀ ws t, s₄.workspaces.lookup ws = some t → ws ≠ "default" → t.readable = true →
              Disjoint t.paths (ffPaths env epochOid branchOid) := by
          rw [evaluateFfSafety_eq_safe_iff]
          constructor
          · intro hall ws t ht hne hreadable
            refine hall ⟨ws, t.paths⟩ ((hmem _).mpr ⟨?_, hne, t, ht, hreadable, rfl⟩)
            rw [← List.mem_toFinset, hwss, Finmap.mem_keys]
            exact FiniteMap.mem_of_lookup ht
          · intro hall w hw
            obtain ⟨-, hne, t, ht, hreadable, hpaths⟩ := (hmem w).mp hw
            rw [hpaths]
            exact hall w.name t ht hne hreadable
        have hstrict : isStrictAncestor env epochOid branchOid = true :=
          Bool.eq_true_of_not_eq_false hnot
        rw [← hsafe, and_iff_right hstrict]
        cases hdecision : evaluateFfSafety (ffPaths env epochOid branchOid) touched with
        | safe =>
          simp only [hdecision] at hrest₄
          obtain ⟨rfl, rfl⟩ := returns_pure.mp hrest₄
          exact ⟨rfl, iff_of_true ⟨_, rfl⟩ rfl⟩
        | blocked affected =>
          simp only [hdecision] at hrest₄
          obtain ⟨rfl, rfl⟩ := returns_pure.mp hrest₄
          exact ⟨rfl, iff_of_false (by simp) (by simp)⟩

theorem follows_autoAdvance {outcome : AutoAdvanceOutcome} (hfollows : Follows config s)
    (h : Returns (EpochOp.exec env) (autoAdvanceIfSafe env config) s outcome s') :
    Follows config s' ↔ env.writable (workspaceEpochRef config.defaultWorkspace) = true ∨
      ¬ Advanceable env config s := by
  obtain ⟨since, s₁, hstart, hrest₁⟩ := returns_bind.mp h
  obtain rfl := returns_start hstart
  obtain ⟨o, s₂, hclassify, hrest₂⟩ := returns_bind.mp hrest₁
  obtain ⟨rfl, hadvance⟩ := returns_classifyDrift hclassify
  rcases o with - | ⟨kind, drift⟩
  · obtain ⟨-, rfl⟩ := returns_pure.mp hrest₂
    exact iff_of_true hfollows (.inr fun hadv => by simpa using hadvance.mpr hadv)
  · cases kind with
    | ffAbsorbable =>
      have hadv := hadvance.mp ⟨drift, rfl⟩
      obtain ⟨branch, s₃, hbranch, hrest₃⟩ := returns_bind.mp hrest₂
      obtain ⟨rfl, -, hbranchOid⟩ := returns_readRef hbranch
      cases branch with
      | none => exact absurd hrest₃ not_returns_throw
      | some newEpoch =>
        obtain ⟨u₁, s₄, hwrite, hrest₄⟩ := returns_bind.mp hrest₃
        obtain rfl := returns_repairEpoch hwrite
        obtain ⟨u₂, s₅, htry, hrest₅⟩ := returns_bind.mp hrest₄
        obtain ⟨-, rfl⟩ := returns_pure.mp hrest₅
        rw [follows_tryWriteRef hfollows htry]
        refine or_congr_right (iff_of_false (fun heq => ?_) fun hnot => hnot hadv)
        obtain ⟨epochOid, branchOid, hepoch, hbranch', hstrict, -⟩ := hadv
        rw [← hbranchOid] at hbranch'
        rw [hepoch] at heq
        obtain rfl := Option.some.inj heq
        obtain rfl := Option.some.inj hbranch'
        simp [isStrictAncestor] at hstrict
    | inSync =>
      obtain ⟨-, rfl⟩ := returns_pure.mp hrest₂
      exact iff_of_true hfollows (.inr fun hadv => by simpa using hadvance.mpr hadv)
    | ffBlocked affected =>
      obtain ⟨-, rfl⟩ := returns_pure.mp hrest₂
      exact iff_of_true hfollows (.inr fun hadv => by simpa using hadvance.mpr hadv)
    | diverged =>
      obtain ⟨-, rfl⟩ := returns_pure.mp hrest₂
      exact iff_of_true hfollows (.inr fun hadv => by simpa using hadvance.mpr hadv)

/-! ### Merges -/

/-- A failure of the resync changes nothing either. -/
theorem resolveEpoch_of_not_resync {r : Except EpochError GitOid} (hnot : ¬ Resync env config s)
    (h : Prog.Runs (EpochOp.exec env) (resolveEpoch config false).run s (.done r) s') : s' = s := by
  cases r with
  | ok oid =>
    rcases returns_resolveEpoch h with ⟨rfl, -⟩ | ⟨-, old, branchOid, hold, hbranch, hne, -⟩
    · rfl
    · exact absurd ⟨old, branchOid, hold, hbranch, hne⟩ hnot
  | error e =>
    rcases runs_bind_cases h with ⟨since, s₁, hstart, hrest₁⟩ | ⟨e, hstart, -⟩
    · obtain rfl := returns_start hstart
      rcases runs_bind_cases hrest₁ with ⟨o, s₂, hepoch, hrest₂⟩ | ⟨e, hepoch, -⟩
      · obtain ⟨rfl, ho⟩ := returns_asOption_readRef hepoch
        rcases o with - | - | old
        · exact (runs_attempt_done.mp hrest₂).1
        · exact (runs_attempt_done.mp hrest₂).1
        · rcases runs_bind_cases hrest₂ with ⟨b, s₃, hbranch, hrest₃⟩ | ⟨e, hbranch, -⟩
          · obtain ⟨rfl, hb⟩ := returns_asOption_readRef hbranch
            rcases b with - | - | branchOid
            · exact (runs_done hrest₃).2
            · exact (runs_done hrest₃).2
            · by_cases hne : old ≠ branchOid
              · exact absurd ⟨old, branchOid, ho.symm, hb.symm, hne⟩ hnot
              · simp only [if_neg hne] at hrest₃
                exact (runs_done hrest₃).2
          · exact absurd hbranch not_runs_asOption_error
      · exact absurd hepoch not_runs_asOption_error
    · cases (runs_attempt_done.mp hstart).2

theorem collectSiblings_ne {target : String} {wss : List String}
    {touched : List WorkspaceTouchedPaths}
    (h : Returns (EpochOp.exec env) (collectSiblings target wss) s touched s') :
    s' = s ∧ ∀ w ∈ touched, w.name ≠ target := by
  induction wss generalizing s touched with
  | nil =>
    obtain ⟨rfl, rfl⟩ := returns_pure.mp h
    exact ⟨rfl, fun w hw => absurd hw List.not_mem_nil⟩
  | cons ws wss ih =>
    rw [collectSiblings] at h
    split_ifs at h with htarget
    · exact ih h
    · obtain ⟨paths, s₁, hread, hrest₁⟩ := returns_bind.mp h
      obtain ⟨rfl, -⟩ := returns_attempt.mp hread
      obtain ⟨rest, s₂, hcollect, hrest₂⟩ := returns_bind.mp hrest₁
      obtain ⟨rfl, rfl⟩ := returns_pure.mp hrest₂
      obtain ⟨rfl, hne⟩ := ih hcollect
      refine ⟨rfl, fun w hw => ?_⟩
      rcases List.mem_cons.mp hw with rfl | hw
      · exact htarget
      · exact hne w hw

/-- Other refs than the baselines stay. -/
theorem lookup_writeBaselines {wss : List String} {u : Unit}
    (h : Returns (EpochOp.exec env) (writeBaselines oid wss) s u s')
    (hne : ∀ ws ∈ wss, name ≠ workspaceEpochRef ws) :
    s'.refs.lookup name = s.refs.lookup name := by
  induction wss generalizing s u with
  | nil =>
    obtain ⟨-, rfl⟩ := returns_pure.mp h
    rfl
  | cons ws wss ih =>
    obtain ⟨u₁, s₁, htry, hrest⟩ := returns_bind.mp h
    rw [ih hrest fun w hw => hne w (List.mem_cons_of_mem _ hw), returns_tryWriteRef htry]
    split_ifs
    · rw [EpochState.lookup_setRef, if_neg (hne ws List.mem_cons_self)]
    · rfl

/-- The baseline is at the epoch or at a commit below it. -/
def BaselineBelow (env : EpochEnv) (config : MawConfig) (s : EpochState) : Prop :=
  ∀ base, s.refs.lookup (workspaceEpochRef config.defaultWorkspace) = some base →
    ∃ epochOid, s.epoch = some epochOid ∧ env.commits.IsAncestor base epochOid

theorem baselineBelow_of_follows (h : Follows config s) : BaselineBelow env config s := by
  intro base hbase
  rw [Follows] at h
  exact ⟨base, h ▸ hbase, .refl _⟩

theorem baselineBelow_reconcile {epochOid branchOid : GitOid} {u : Unit}
    (hfollows : Follows config s) (hepoch : s.epoch = some epochOid)
    (h : Returns (EpochOp.exec env)
      (reconcileEpochWithBranch env config.defaultWorkspace epochOid branchOid) s u s') :
    BaselineBelow env config s' := by
  rw [reconcileEpochWithBranch] at h
  split_ifs at h with heq hnot
  · obtain ⟨-, rfl⟩ := returns_pure.mp h
    exact baselineBelow_of_follows hfollows
  · exact absurd h not_returns_throw
  · obtain ⟨wss, s₁, hlist, hrest₁⟩ := returns_bind.mp h
    obtain ⟨rfl, -⟩ := returns_reads.mp (returns_attempt.mp hlist)
    obtain ⟨touched, s₂, hcollect, hrest₂⟩ := returns_bind.mp hrest₁
    obtain ⟨rfl, hne⟩ := collectSiblings_ne hcollect
    obtain ⟨u₁, s₃, hother, hrest₃⟩ := returns_bind.mp hrest₂
    obtain rfl := returns_otherStep hother
    cases hdecision : evaluateFfSafety (ffPaths env epochOid branchOid) touched with
    | blocked affected =>
      simp only [hdecision] at hrest₃
      exact absurd hrest₃ not_returns_throw
    | safe =>
      simp only [hdecision] at hrest₃
      obtain ⟨u₂, s₄, hother', hrest₄⟩ := returns_bind.mp hrest₃
      obtain rfl := returns_otherStep hother'
      obtain ⟨u₃, s₅, hwrite, hrest₅⟩ := returns_bind.mp hrest₄
      obtain ⟨-, rfl⟩ := returns_writeRef hwrite
      obtain ⟨u₄, s₆, hbaselines, htry⟩ := returns_bind.mp hrest₅
      have hlookup {name : String} (hname : ∀ w ∈ touched, name ≠ workspaceEpochRef w.name) :
          s₆.refs.lookup name = (s₄.setRef epochCurrent branchOid).refs.lookup name := by
        refine lookup_writeBaselines hbaselines fun ws hws => ?_
        obtain ⟨w, hw, rfl⟩ := List.mem_map.mp hws
        exact hname w hw
      have hepoch₆ : s₆.epoch = some branchOid := by
        rw [EpochState.epoch, hlookup fun w _ => (workspaceEpochRef_ne_epochCurrent _).symm]
        exact epoch_setRef
      have hbase₆ : s₆.refs.lookup (workspaceEpochRef config.defaultWorkspace) = some epochOid := by
        rw [hlookup fun w hw heq => hne w hw (workspaceEpochRef_injective heq).symm,
          EpochState.lookup_setRef, if_neg (workspaceEpochRef_ne_epochCurrent _), hfollows, hepoch]
      rw [returns_tryWriteRef htry]
      split_ifs
      · exact baselineBelow_of_follows (follows_setRef_baseline hepoch₆)
      · intro base hbase
        rw [hbase₆] at hbase
        obtain rfl := Option.some.inj hbase
        have hstrict := Bool.eq_true_of_not_eq_false hnot
        rw [isStrictAncestor, Bool.and_eq_true] at hstrict
        exact ⟨branchOid, hepoch₆, env.ancestry.isAncestor_iff.mp hstrict.2⟩

theorem baselineBelow_reconcileEpoch {branchBefore : GitOid} {u : Unit}
    (hfollows : Follows config s)
    (h : Returns (EpochOp.exec env) (reconcile env config branchBefore) s u s') :
    BaselineBelow env config s' := by
  obtain ⟨o, s₁, hread, hrest⟩ := returns_bind.mp h
  obtain ⟨rfl, ho⟩ := returns_asOption_readRef hread
  rcases o with - | - | epochOid
  · obtain ⟨-, rfl⟩ := returns_pure.mp hrest
    exact baselineBelow_of_follows hfollows
  · obtain ⟨-, rfl⟩ := returns_pure.mp hrest
    exact baselineBelow_of_follows hfollows
  · exact baselineBelow_reconcile hfollows (epoch_of_readOr ho.symm) hrest

/-- The default workspace is taken along if its worktree exists and its baseline can be written. -/
theorem follows_updateDefaultWorkspace {u : Unit} (hepoch : s.epoch = some oid)
    (hstays : ¬ Follows config s)
    (h : Returns (EpochOp.exec env) (updateDefaultWorkspace config oid) s u s') :
    Follows config s' ↔ env.worktreeExists = true ∧
      env.writable (workspaceEpochRef config.defaultWorkspace) = true := by
  obtain ⟨found, s₁, hexists, hrest⟩ := returns_bind.mp h
  obtain ⟨rfl, hfound⟩ := returns_attempt.mp hexists
  obtain rfl := Except.ok.inj hfound
  cases hworktree : env.worktreeExists with
  | false =>
    rw [hworktree] at hrest
    obtain ⟨-, rfl⟩ := returns_pure.mp hrest
    exact iff_of_false hstays fun ⟨hfalse, _⟩ => by cases hfalse
  | true =>
    rw [hworktree] at hrest
    obtain ⟨u₁, s₂, hcheckout, htry⟩ := returns_bind.mp hrest
    obtain rfl := returns_otherStep hcheckout
    rw [returns_tryWriteRef htry]
    split_ifs with hwritable
    · exact iff_of_true (follows_setRef_baseline hepoch) ⟨rfl, hwritable⟩
    · exact iff_of_false hstays fun ⟨_, htrue⟩ => hwritable htrue

/-- A commit moves the epoch and the branch, and nothing else. -/
theorem lookup_setRefs_pair {branch : String} {old old' : GitOid}
    (hname : name ≠ branchRef branch) :
    (s.setRefs [⟨epochCurrent, old, oid⟩, ⟨branchRef branch, old', oid⟩]).refs.lookup name =
      if name = epochCurrent then some oid else s.refs.lookup name := by
  rw [EpochState.setRefs, List.foldl_cons, List.foldl_cons, List.foldl_nil,
    EpochState.lookup_setRef, if_neg hname, EpochState.lookup_setRef]

theorem follows_merge {u : Unit} (hfollows : Follows config s)
    (h : Returns (EpochOp.exec env) (mergeIntoDefault env config) s u s') :
    Follows config s' ↔ env.worktreeExists = true ∧
      env.writable (workspaceEpochRef config.defaultWorkspace) = true := by
  obtain ⟨s₁, hbody, rfl⟩ := returns_withEpochLock h
  obtain ⟨branch, s₂, hbranch, hrest₁⟩ := returns_bind.mp hbody
  obtain ⟨rfl, -, -⟩ := returns_readRef hbranch
  cases branch with
  | none => exact absurd hrest₁ not_returns_throw
  | some branchBefore =>
    obtain ⟨u₁, s₄, hreconcile, hrest₃⟩ := returns_bind.mp hrest₁
    have hlocked : Follows config { s with locked := true } := hfollows
    have hbelow : BaselineBelow env config s₄ := baselineBelow_reconcileEpoch hlocked hreconcile
    obtain ⟨epoch, s₅, hepoch, hrest₄⟩ := returns_bind.mp hrest₃
    obtain ⟨rfl, -, hepochOid⟩ := returns_readRef hepoch
    cases epoch with
    | none => exact absurd hrest₄ not_returns_throw
    | some epochBefore =>
      obtain ⟨candidate, s₆, hbuild, hrest₅⟩ := returns_bind.mp hrest₄
      obtain ⟨rfl, hnew, -⟩ := returns_buildCommit hbuild
      obtain ⟨u₂, s₇, hother, hrest₆⟩ := returns_bind.mp hrest₅
      obtain rfl := returns_otherStep hother
      obtain ⟨u₃, s₈, hcommit, hrest₇⟩ := returns_bind.mp hrest₆
      obtain ⟨-, rfl⟩ := returns_updateRefsAtomic hcommit
      obtain ⟨siblings, s₉, hsiblings, hrest₈⟩ := returns_bind.mp hrest₇
      obtain ⟨rfl, -⟩ := returns_reads.mp (returns_attempt.mp hsiblings)
      obtain ⟨u₄, final, hbaselines, hrest₉⟩ := returns_bind.mp hrest₈
      have hepoch' : final.epoch = some candidate := by
        rw [EpochState.epoch, lookup_writeBaselines hbaselines fun ws _ =>
            (workspaceEpochRef_ne_epochCurrent ws).symm,
          lookup_setRefs_pair (branchRef_ne_epochCurrent _).symm, if_pos rfl]
      have hbase : final.refs.lookup (workspaceEpochRef config.defaultWorkspace) =
          s₇.refs.lookup (workspaceEpochRef config.defaultWorkspace) := by
        rw [lookup_writeBaselines hbaselines, lookup_setRefs_pair
          (workspaceEpochRef_ne_branchRef _ _), if_neg (workspaceEpochRef_ne_epochCurrent _)]
        intro ws hws heq
        rw [workspaceEpochRef_injective heq] at hws
        exact absurd rfl (of_decide_eq_true (List.mem_filter.mp hws).2)
      -- The candidate is not below the epoch that the baseline is below.
      have hstays : ¬ Follows config final := by
        intro hfinal
        rw [Follows, hepoch', hbase] at hfinal
        obtain ⟨epochOid, hepochOid', hanc⟩ := hbelow candidate hfinal
        rw [EpochState.epoch, ← hepochOid] at hepochOid'
        obtain rfl := Option.some.inj hepochOid'
        exact hnew hanc
      obtain ⟨u₅, s₁₀, hupdate, hlast⟩ := returns_bind.mp hrest₉
      obtain rfl := returns_otherStep hlast
      have hiff := follows_updateDefaultWorkspace hepoch' hstays hupdate
      exact hiff

/-! ### Undo -/

/-- Nothing is resynced while the epoch is at the branch. -/
theorem not_resync_of_eq (h : s.epoch = s.refs.lookup (branchRef config.branch)) :
    ¬ Resync env config s := by
  rintro ⟨old, branchOid, hold, hbranch, hne⟩
  have hbranchOid : s.refs.lookup (branchRef config.branch) = some branchOid := by
    rw [readOr] at hbranch
    split_ifs at hbranch
    exact hbranch
  rw [epoch_of_readOr hold, hbranchOid] at h
  exact hne (Option.some.inj h)

theorem returns_restoreSources {n : ℕ} {u : Unit} (hnot : ¬ Resync env config s)
    (h : Returns (EpochOp.exec env) (restoreSources config n) s u s') : s' = s := by
  induction n generalizing u with
  | zero => exact (returns_pure.mp h).2
  | succ n ih =>
    obtain ⟨o, s₁, hcreate, hrest⟩ := returns_bind.mp h
    obtain ⟨r, hrun, -⟩ := returns_asOption.mp hcreate
    obtain rfl := resolveEpoch_of_not_resync hnot hrun
    exact ih hrest

theorem follows_undo {source target : GitOid} {restored : ℕ} {u : Unit}
    (hfollows : Follows config s)
    (h : Returns (EpochOp.exec env) (undoMerge config source target restored) s u s') :
    Follows config s' ↔ s.epoch = some target ∨
      (config.defaultWorkspace = "default" ∧
        env.writable (workspaceEpochRef "default") = true) := by
  obtain ⟨s₁, hbody, rfl⟩ := returns_withEpochLock h
  obtain ⟨u₁, s₂, hother₁, hrest₁⟩ := returns_bind.mp hbody
  obtain rfl := returns_otherStep hother₁
  obtain ⟨u₂, s₃, hmove, hrest₂⟩ := returns_bind.mp hrest₁
  obtain ⟨-, hs₃⟩ := returns_updateRefsAtomic hmove
  obtain ⟨u₃, s₄, hother₂, hrest₃⟩ := returns_bind.mp hrest₂
  obtain rfl := returns_otherStep hother₂
  obtain ⟨u₄, s₅, htry, hrest₄⟩ := returns_bind.mp hrest₃
  have hs₅ := returns_tryWriteRef htry
  have hepoch : s₄.epoch = some target := by
    rw [hs₃, EpochState.epoch, lookup_setRefs_pair (branchRef_ne_epochCurrent _).symm, if_pos rfl]
  have hbranch : s₄.refs.lookup (branchRef config.branch) = some target := by
    rw [hs₃, EpochState.setRefs, List.foldl_cons, List.foldl_cons, List.foldl_nil,
      EpochState.lookup_setRef, if_pos rfl]
  have hbase : s₄.refs.lookup (workspaceEpochRef config.defaultWorkspace) = s.epoch := by
    rw [hs₃, lookup_setRefs_pair (workspaceEpochRef_ne_branchRef _ _),
      if_neg (workspaceEpochRef_ne_epochCurrent _)]
    exact hfollows
  have hepoch₅ : s₅.epoch = some target := by
    rw [hs₅]
    split_ifs
    · rw [epoch_setRef_of_ne (workspaceEpochRef_ne_epochCurrent _), hepoch]
    · exact hepoch
  have hnot : ¬ Resync env config s₅ := by
    refine not_resync_of_eq (hepoch₅.trans ?_)
    rw [hs₅]
    split_ifs
    · rw [EpochState.lookup_setRef, if_neg (workspaceEpochRef_ne_branchRef _ _).symm, hbranch]
    · exact hbranch.symm
  obtain ⟨u₅, s₆, hrestore, hlast⟩ := returns_bind.mp hrest₄
  obtain rfl := returns_otherStep hlast
  obtain rfl := returns_restoreSources hnot hrestore
  have hiff : Follows config s₁ ↔ s.epoch = some target ∨ (config.defaultWorkspace = "default" ∧
      env.writable (workspaceEpochRef "default") = true) := by
    rw [Follows, hepoch₅, hs₅]
    split_ifs with hwritable
    · rw [EpochState.lookup_setRef]
      split_ifs with hname
      · exact iff_of_true rfl (.inr ⟨workspaceEpochRef_injective hname, hwritable⟩)
      · rw [hbase]
        refine (or_iff_left ?_).symm
        rintro ⟨hdefault, -⟩
        exact hname (congrArg workspaceEpochRef hdefault)
    · rw [hbase]
      exact (or_iff_left fun hboth => hwritable hboth.2).symm
  exact hiff

/-! ### Quarantines and pulls -/

/-- The promoted commit is new, so that the baseline stays below the epoch. -/
theorem not_follows_promote {epochBefore : GitOid} {branch : String} {u : Unit}
    (hfollows : Follows config s)
    (h : Returns (EpochOp.exec env) (promoteQuarantine epochBefore branch) s u s') :
    ¬ Follows config s' := by
  obtain ⟨u₁, s₁, hother₁, hrest₁⟩ := returns_bind.mp h
  obtain rfl := returns_otherStep hother₁
  obtain ⟨commitOid, s₂, hbuild, hrest₂⟩ := returns_bind.mp hrest₁
  obtain ⟨rfl, hnew, -⟩ := returns_buildCommit hbuild
  obtain ⟨u₂, s₃, hother₂, hrest₃⟩ := returns_bind.mp hrest₂
  obtain rfl := returns_otherStep hother₂
  obtain ⟨u₃, s₄, hmove, hbranch⟩ := returns_bind.mp hrest₃
  obtain ⟨hmatches, rfl⟩ := returns_updateRefsAtomic hmove
  obtain ⟨-, rfl⟩ := returns_updateRefsAtomic hbranch
  have hepoch := hmatches _ List.mem_cons_self
  rw [EpochState.setRefs, List.foldl_cons, List.foldl_nil, EpochState.setRefs, List.foldl_cons,
    List.foldl_nil, follows_setRef_of_ne (branchRef_ne_epochCurrent _)
      (workspaceEpochRef_ne_branchRef _ _).symm, follows_setRef_epoch hfollows]
  intro heq
  rw [RefStore.Matches] at hepoch
  split_ifs at hepoch
  · rw [EpochState.epoch, hepoch] at heq
    cases heq
  · rw [EpochState.epoch, hepoch] at heq
    have hsame : epochBefore = commitOid := Option.some.inj heq
    rw [hsame] at hnew
    exact hnew (.refl _)

/-- The fetched epoch replaces the one here. -/
def Adopts (env : EpochEnv) (s : EpochState) : Prop :=
  ∃ remoteOid, s.refs.lookup remoteEpoch = some remoteOid ∧
    (s.epoch = none ∨ ∃ localOid, s.epoch = some localOid ∧ localOid ≠ remoteOid ∧
      env.ancestry.isAncestor localOid remoteOid = true)

theorem follows_mergeEpochRef {result : EpochMergeResult} (hfollows : Follows config s)
    (h : Returns (EpochOp.exec env) (mergeEpochRef env) s result s') :
    Follows config s' ↔ ¬ Adopts env s := by
  obtain ⟨since, s₁, hstart, hrest₁⟩ := returns_bind.mp h
  obtain rfl := returns_start hstart
  obtain ⟨localOid, s₂, hlocal, hrest₂⟩ := returns_bind.mp hrest₁
  obtain ⟨rfl, -, hepoch⟩ := returns_readRef hlocal
  obtain ⟨remoteOid, s₃, hremote, hrest₃⟩ := returns_bind.mp hrest₂
  obtain ⟨rfl, -, hfetched⟩ := returns_readRef hremote
  have hlocalOid : s₃.epoch = localOid := hepoch.symm
  cases remoteOid with
  | none =>
    obtain ⟨-, rfl⟩ := returns_pure.mp hrest₃
    refine iff_of_true hfollows ?_
    rintro ⟨r, hr, -⟩
    rw [← hfetched] at hr
    cases hr
  | some remote =>
    cases localOid with
    | none =>
      obtain ⟨u, s₄, hwrite, hrest₄⟩ := returns_bind.mp hrest₃
      obtain rfl := returns_repairEpoch hwrite
      obtain ⟨-, rfl⟩ := returns_pure.mp hrest₄
      rw [follows_setRef_epoch hfollows, hlocalOid]
      exact iff_of_false (by simp) fun hnot => hnot ⟨remote, hfetched.symm, .inl hlocalOid⟩
    | some localOid =>
      have hadopts : Adopts env s₃ ↔ localOid ≠ remote ∧
          env.ancestry.isAncestor localOid remote = true := by
        simp [Adopts, ← hfetched, hlocalOid]
      rw [hadopts]
      dsimp only at hrest₃
      split_ifs at hrest₃ with heq hforward hback
      · obtain ⟨-, rfl⟩ := returns_pure.mp hrest₃
        exact iff_of_true hfollows fun hboth => hboth.1 heq
      · obtain ⟨u, s₄, hwrite, hrest₄⟩ := returns_bind.mp hrest₃
        obtain rfl := returns_repairEpoch hwrite
        obtain ⟨-, rfl⟩ := returns_pure.mp hrest₄
        rw [follows_setRef_epoch hfollows, hlocalOid]
        exact iff_of_false (fun hsame => heq (Option.some.inj hsame)) fun hnot =>
          hnot ⟨heq, hforward⟩
      · obtain ⟨-, rfl⟩ := returns_pure.mp hrest₃
        exact iff_of_true hfollows fun hboth => hforward hboth.2
      · obtain ⟨-, rfl⟩ := returns_pure.mp hrest₃
        exact iff_of_true hfollows fun hboth => hforward hboth.2

end Calls

/-! ### Operations one after another -/

/-- When an operation leaves the baseline at the epoch, judged by the state that it starts from. -/
def Restores (env : EpochEnv) (config : MawConfig) : EpochTask → EpochState → Prop
  | .create revision, s => revision = true ∨ ¬ Resync env config s
  | .sync, s => env.writable (workspaceEpochRef config.defaultWorkspace) = true ∨
      s.epoch = s.refs.lookup (branchRef config.branch)
  | .autoAdvance, s => env.writable (workspaceEpochRef config.defaultWorkspace) = true ∨
      ¬ Advanceable env config s
  | .merge, _ => env.worktreeExists = true ∧
      env.writable (workspaceEpochRef config.defaultWorkspace) = true
  | .undo _ target _, s => s.epoch = some target ∨ (config.defaultWorkspace = "default" ∧
      env.writable (workspaceEpochRef "default") = true)
  | .promote _ _, _ => False
  | .pull, s => ¬ Adopts env s
  | .userCommit _, _ => True
  | .fetch _, _ => True
  | .edit _ _, _ => True
  | .remove _, _ => True
  | .holderDies, _ => True

section Runs

variable {env : EpochEnv} {config : MawConfig} {s s' : EpochState}

theorem follows_iff_restores {task : EpochTask} (hfollows : Follows config s)
    (h : Returns (EpochOp.exec env) (task.program env config) s () s') :
    Follows config s' ↔ Restores env config task s := by
  cases task with
  | create revision =>
    obtain ⟨oid, s₁, hresolve, hrest⟩ := returns_bind.mp h
    obtain ⟨-, rfl⟩ := returns_pure.mp hrest
    exact follows_resolveEpoch hfollows hresolve
  | sync => exact follows_epochSync hfollows h
  | autoAdvance =>
    obtain ⟨outcome, s₁, hadvance, hrest⟩ := returns_bind.mp h
    obtain ⟨-, rfl⟩ := returns_pure.mp hrest
    exact follows_autoAdvance hfollows hadvance
  | merge => exact follows_merge hfollows h
  | undo source target restored => exact follows_undo hfollows h
  | promote epochBefore branch => exact iff_of_false (not_follows_promote hfollows h) id
  | pull =>
    obtain ⟨result, s₁, hmerge, hrest⟩ := returns_bind.mp h
    obtain ⟨-, rfl⟩ := returns_pure.mp hrest
    exact follows_mergeEpochRef hfollows hmerge
  | userCommit oid =>
    obtain ⟨-, rfl⟩ := returns_writeRef h
    refine iff_of_true ?_ trivial
    exact (follows_setRef_of_ne (branchRef_ne_epochCurrent _)
      (workspaceEpochRef_ne_branchRef _ _).symm).mpr hfollows
  | fetch oid =>
    obtain ⟨-, rfl⟩ := returns_writeRef h
    refine iff_of_true ?_ trivial
    exact (follows_setRef_of_ne remoteEpoch_ne_epochCurrent
      (workspaceEpochRef_ne_remoteEpoch _).symm).mpr hfollows
  | edit ws touched =>
    obtain ⟨-, rfl⟩ := returns_attempt.mp h
    exact iff_of_true hfollows trivial
  | remove ws =>
    obtain ⟨-, rfl⟩ := returns_attempt.mp h
    exact iff_of_true hfollows trivial
  | holderDies =>
    obtain ⟨-, rfl⟩ := returns_attempt.mp h
    exact iff_of_true hfollows trivial

/-- Operations that succeed one after another, each of which meets a condition where it starts. -/
inductive Steps (env : EpochEnv) (config : MawConfig) (C : EpochTask → EpochState → Prop) :
    EpochState → EpochState → Prop
  | refl (s : EpochState) : Steps env config C s s
  | tail {s s' s'' : EpochState} (hsteps : Steps env config C s s') (task : EpochTask)
      (hC : C task s') (h : Returns (EpochOp.exec env) (task.program env config) s' () s'') :
      Steps env config C s s''

/-- After an operation the baseline is the epoch again exactly when the operation restores that,
and it is in every state of a run of such operations. -/
theorem follows_exactly_if_restored :
    (∀ task s s', Follows config s →
      Returns (EpochOp.exec env) (task.program env config) s () s' →
        (Follows config s' ↔ Restores env config task s)) ∧
      ∀ s s', Follows config s → Steps env config (Restores env config) s s' →
        Follows config s' := by
  refine ⟨fun task s s' hfollows h => follows_iff_restores hfollows h,
    fun s s' hfollows hsteps => ?_⟩
  induction hsteps with
  | refl => exact hfollows
  | tail _ task hC h ih => exact (follows_iff_restores ih h).mpr hC

end Runs

/-! ### A commit of the user -/

/-- A repository in which every ref can be read and written. -/
noncomputable def sampleEnv : EpochEnv where
  commits := sampleThreeCommits
  ancestry := sampleAncestry
  readable _ := true
  writable _ := true
  worktreeExists := true

def sampleConfig : MawConfig := ⟨"main", "default"⟩

/-- The epoch, the branch and the baseline are at the first commit. -/
def initialState : EpochState where
  refs := ((Finmap.singleton epochCurrent (sampleBlob 1)).insert (branchRef "main")
    (sampleBlob 1)).insert (workspaceEpochRef "default") (sampleBlob 1)
  epochLog := [sampleBlob 1]
  locked := false
  workspaces := ∅

/-- The user has committed to the branch. -/
def aheadState : EpochState := initialState.setRef (branchRef "main") (sampleBlob 2)

theorem follows_initialState : Follows sampleConfig initialState := by
  rw [Follows]
  decide +kernel

theorem returns_userCommit : Returns (EpochOp.exec sampleEnv)
    ((EpochTask.userCommit (sampleBlob 2)).program sampleEnv sampleConfig) initialState ()
      aheadState :=
  returns_attempt.mpr ⟨rfl, rfl⟩

theorem lookup_aheadState_epoch : aheadState.refs.lookup epochCurrent = some (sampleBlob 1) := by
  decide +kernel

theorem lookup_aheadState_branch :
    aheadState.refs.lookup (branchRef "main") = some (sampleBlob 2) := by
  decide +kernel

/-- Epoch sync takes the epoch and the baseline to it. -/
theorem follows_exactly_if_restored_sync : ∃ s',
    Steps sampleEnv sampleConfig (Restores sampleEnv sampleConfig) initialState s' ∧
      s'.epoch = some (sampleBlob 2) ∧ Follows sampleConfig s' := by
  have hacquire : EpochOp.exec sampleEnv .acquireEpochLock aheadState (.ok ())
      { aheadState with locked := true } := .inl ⟨rfl, rfl, rfl⟩
  have hother (s : EpochState) : EpochOp.exec sampleEnv .otherStep s (.ok ()) s :=
    ⟨rfl, .inl ⟨(), rfl, trivial⟩⟩
  have hepoch : EpochOp.exec sampleEnv (.readRef epochCurrent) { aheadState with locked := true }
      (.ok (some (sampleBlob 1))) { aheadState with locked := true } :=
    ⟨rfl, congrArg Except.ok lookup_aheadState_epoch.symm⟩
  have hbranch : EpochOp.exec sampleEnv (.readRef (branchRef "main"))
      { aheadState with locked := true } (.ok (some (sampleBlob 2)))
      { aheadState with locked := true } :=
    ⟨rfl, congrArg Except.ok lookup_aheadState_branch.symm⟩
  have hwrite (name : String) (s : EpochState) : EpochOp.exec sampleEnv
      (.writeRef name (sampleBlob 2)) s (.ok ()) (s.setRef name (sampleBlob 2)) := ⟨rfl, rfl⟩
  have hrelease (s : EpochState) : EpochOp.exec sampleEnv .releaseEpochLock s (.ok ())
      { s with locked := false } := ⟨rfl, rfl⟩
  have hsync : Returns (EpochOp.exec sampleEnv) (EpochTask.sync.program sampleEnv sampleConfig)
      aheadState () _ :=
    .step hacquire <| .step (hother _) <| .step hepoch <| .step hbranch <|
      .step (hwrite epochCurrent _) <| .step (hwrite (workspaceEpochRef "default") _) <|
        .step (hother _) <| .step (hrelease _) <| .refl _ _
  have hahead : Steps sampleEnv sampleConfig (Restores sampleEnv sampleConfig) initialState
      aheadState := (Steps.refl _).tail (.userCommit (sampleBlob 2)) trivial returns_userCommit
  have hsteps := hahead.tail .sync (.inl rfl) hsync
  refine ⟨_, hsteps, ?_, follows_exactly_if_restored.2 _ _ follows_initialState hsteps⟩
  exact epoch_setRef_of_ne (workspaceEpochRef_ne_epochCurrent _)

/-- The creation of a workspace takes only the epoch to it. -/
theorem not_follows : ∃ s s',
    Steps sampleEnv sampleConfig (fun _ _ => True) initialState s ∧ Follows sampleConfig s ∧
      Returns (EpochOp.exec sampleEnv)
        ((EpochTask.create false).program sampleEnv sampleConfig) s () s' ∧
      s'.epoch = some (sampleBlob 2) ∧ ¬ Follows sampleConfig s' := by
  have hstart : EpochOp.exec sampleEnv .start aheadState (.ok 1) aheadState := ⟨rfl, rfl⟩
  have hepoch : EpochOp.exec sampleEnv (.readRef epochCurrent) aheadState
      (.ok (some (sampleBlob 1))) aheadState :=
    ⟨rfl, congrArg Except.ok lookup_aheadState_epoch.symm⟩
  have hbranch : EpochOp.exec sampleEnv (.readRef (branchRef "main")) aheadState
      (.ok (some (sampleBlob 2))) aheadState :=
    ⟨rfl, congrArg Except.ok lookup_aheadState_branch.symm⟩
  have hrepair : EpochOp.exec sampleEnv (.repairEpoch ⟨1, none⟩ (sampleBlob 2)) aheadState
      (.ok ()) (aheadState.setRef epochCurrent (sampleBlob 2)) := ⟨rfl, rfl⟩
  have hcreate : Returns (EpochOp.exec sampleEnv)
      ((EpochTask.create false).program sampleEnv sampleConfig) aheadState () _ :=
    .step hstart <| .step hepoch <| .step hbranch <| .step hrepair <| .refl _ _
  have hahead : Steps sampleEnv sampleConfig (fun _ _ => True) initialState aheadState :=
    (Steps.refl _).tail (.userCommit (sampleBlob 2)) trivial returns_userCommit
  refine ⟨_, _, hahead, ?_, hcreate, epoch_setRef, ?_⟩
  · exact (follows_setRef_of_ne (branchRef_ne_epochCurrent _)
      (workspaceEpochRef_ne_branchRef _ _).symm).mpr follows_initialState
  · rw [Follows, epoch_setRef]
    decide +kernel

end Maw.EpochMoves
