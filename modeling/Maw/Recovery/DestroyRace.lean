import Maw.Recovery.DestroySafe

/-!
# Destroys, prunes and merges at the same time

A live merge holds the epoch lock. A destroy removes its workspace under the same lock, so that no
merge has frozen it; a prune takes no lock.

## Main definitions

* `LiveLocked` — a live merge holds the lock.
* `KeepsFrozen` — a step removes no workspace that is frozen.
* `PrunesUnfrozen` — the prunes of a run remove no workspace that is frozen.

## Main results

* `keepsFrozen_iff` — a run removes no frozen workspace exactly if its prunes do not.
* `plain_destroy_safe` — what a destroy or a prune loses, on its own and with others.
* `not_plain_destroy_safe` — a commit whose changes were taken back is lost.
-/

open Interleaved

namespace Maw.PlainDestroy

variable {ι : Type} [DecidableEq ι]

/-! ### Who holds the lock -/

section Assertions

variable (task : ι → DestroyTask) (me : ι)

def DestroyTask.IsMerge : DestroyTask → Prop
  | merge .. => True
  | destroy .. | prune .. => False

def DestroyTask.IsPrune : DestroyTask → Prop
  | prune .. => True
  | destroy .. | merge .. => False

/-- A live merge holds the lock, and its process is one that merges. -/
def LiveLocked (w : World ι) : Prop :=
  ∀ m, w.merge = some m → m.live = true → w.lock = some m.owner ∧ (task m.owner).IsMerge

/-- A process holds the lock. -/
def Held (w : World ι) : Prop := LiveLocked task w ∧ w.lock = some me

/-- A step removes no workspace that is frozen. -/
def KeepsFrozen (w w' : World ι) : Prop :=
  ∀ name, w.Frozen name → w'.workspaces.lookup name = w.workspaces.lookup name

/-- The steps of one process. -/
def DestroyOwn (w w' : World ι) : Prop :=
  (∀ other, other ≠ me → w.lock = some other → w'.lock = some other) ∧
    (LiveLocked task w → LiveLocked task w') ∧ (¬ (task me).IsPrune → KeepsFrozen w w')

/-- The steps of the other processes. -/
def DestroyRely (w w' : World ι) : Prop :=
  (w.lock = some me → w'.lock = some me) ∧ (LiveLocked task w → LiveLocked task w')

/-- An operation that neither takes the lock nor gives it back, and freezes nothing. -/
def DestroyOp.Quiet : DestroyOp ι → Prop
  | acquireLock _ | releaseLock _ | prepare .. => False
  | _ => True

/-- An operation that removes a workspace. -/
def DestroyOp.Removes : DestroyOp ι → Prop
  | backendDestroy _ => True
  | _ => False

variable {task me} {env : DestroyEnv} {op : DestroyOp ι} {w w' : World ι}

omit [DecidableEq ι] in
theorem stable_liveLocked : Stable (DestroyRely task me) (LiveLocked task) :=
  fun _ _ hrely h => hrely.2 h

omit [DecidableEq ι] in
theorem stable_held : Stable (DestroyRely task me) (Held task me) :=
  fun _ _ hrely h => ⟨hrely.2 h.1, hrely.1 h.2⟩

omit [DecidableEq ι] in
@[simp]
theorem recordEpoch_lock (w : World ι) (ws : Workspace) :
    (DestroyEnv.recordEpoch w ws).lock = w.lock := by
  rw [DestroyEnv.recordEpoch]
  cases ws.epochRef <;> rfl

omit [DecidableEq ι] in
@[simp]
theorem recordEpoch_merge (w : World ι) (ws : Workspace) :
    (DestroyEnv.recordEpoch w ws).merge = w.merge := by
  rw [DestroyEnv.recordEpoch]
  cases ws.epochRef <;> rfl

/-- A quiet operation leaves the lock and the merge that is live. -/
theorem quiet_exec (env : DestroyEnv) (w : World ι) (hop : op.Quiet) :
    (env.exec op w).2.lock = w.lock ∧ ∀ m', (env.exec op w).2.merge = some m' →
      ∃ m, w.merge = some m ∧ m'.live = m.live ∧ m'.owner = m.owner := by
  have hsame {w' : World ι} (hlock : w'.lock = w.lock) (hmerge : w'.merge = w.merge) :
      w'.lock = w.lock ∧ ∀ m', w'.merge = some m' →
        ∃ m, w.merge = some m ∧ m'.live = m.live ∧ m'.owner = m.owner :=
    ⟨hlock, fun m' hm' => ⟨m', hmerge ▸ hm', rfl, rfl⟩⟩
  cases op with
  | acquireLock _ | releaseLock _ | prepare _ _ => exact hop.elim
  | finishMerge =>
    refine ⟨rfl, fun m' hm' => ?_⟩
    obtain ⟨m, hm, rfl⟩ := Option.map_eq_some_iff.mp hm'
    exact ⟨m, hm, rfl, rfl⟩
  | status name | heal name =>
    rw [DestroyEnv.exec]
    cases w.workspaces.lookup name with
    | none => exact hsame rfl rfl
    | some wt => exact hsame (recordEpoch_lock _ _) (recordEpoch_merge _ _)
  | computePatchset name _ =>
    rw [DestroyEnv.exec]
    cases w.workspaces.lookup name <;> exact hsame rfl rfl
  | snapshot name =>
    rw [DestroyEnv.exec]
    cases w.workspaces.lookup name with
    | none => exact hsame rfl rfl
    | some wt =>
      simp only [DestroyEnv.refreshWorkspaceStateRef]
      split_ifs <;> exact hsame rfl rfl
  | _ => exact hsame rfl rfl

/-- Only a removal changes the workspaces. -/
theorem exec_workspaces (hop : ¬ op.Removes) : (env.exec op w).2.workspaces = w.workspaces := by
  cases op with
  | backendDestroy _ => exact absurd trivial hop
  | status name | heal name =>
    rw [DestroyEnv.exec]
    cases w.workspaces.lookup name with
    | none => rfl
    | some wt => exact recordEpoch_workspaces _ _
  | computePatchset name _ =>
    rw [DestroyEnv.exec]
    cases w.workspaces.lookup name <;> rfl
  | snapshot name => exact snapshot_workspaces name
  | acquireLock _ =>
    rw [DestroyEnv.exec]
    split_ifs <;> rfl
  | _ => rfl

theorem keepsFrozen_of_not_removes (hop : ¬ op.Removes) : KeepsFrozen w (env.exec op w).2 :=
  fun name _ => by rw [exec_workspaces hop]

omit [DecidableEq ι] in
/-- Nothing is frozen while a process holds the lock that does not merge. -/
theorem not_frozen_of_held (h : Held task me w) (htask : ¬ (task me).IsMerge) (name : String) :
    ¬ w.Frozen name := by
  rintro ⟨m, hm, -, hlive, -⟩
  obtain ⟨hlock, hmerge⟩ := h.1 m hm hlive
  rw [h.2] at hlock
  cases hlock
  exact htask hmerge

theorem own_of_quiet (hop : op.Quiet)
    (hkept : ¬ (task me).IsPrune → KeepsFrozen w (env.exec op w).2) :
    DestroyOwn task me w (env.exec op w).2 := by
  obtain ⟨hlock, hmerge⟩ := quiet_exec env w hop
  refine ⟨fun other _ hother => hlock.trans hother, fun hlive m' hm' hlive' => ?_, hkept⟩
  obtain ⟨m, hm, hlives, howner⟩ := hmerge m' hm'
  rw [hlock, howner]
  exact hlive m hm (hlives ▸ hlive')

omit [DecidableEq ι] in
theorem keepsFrozen_of_eq (h : w'.workspaces = w.workspaces) : KeepsFrozen w w' :=
  fun name _ => by rw [h]

theorem own_acquire (h : LiveLocked task w) :
    DestroyOwn task me w (env.exec (.acquireLock me) w).2 ∧
      Ends (fun _ => Held task me) (LiveLocked task) (env.exec (.acquireLock me) w).1
        (env.exec (.acquireLock me) w).2 := by
  rw [DestroyEnv.exec]
  split_ifs with hlock
  · have hidle (m : MergeFile ι) (hm : w.merge = some m) : m.live ≠ true := by
      intro hlive
      have hheld := (h m hm hlive).1
      rw [hlock] at hheld
      cases hheld
    have hlive : LiveLocked task { w with lock := some me } :=
      fun m hm hlive => absurd hlive (hidle m hm)
    refine ⟨⟨fun other _ hother => ?_, fun _ => hlive, fun _ => keepsFrozen_of_eq rfl⟩, hlive, rfl⟩
    rw [hlock] at hother
    cases hother
  · exact ⟨⟨fun _ _ hother => hother, id, fun _ => keepsFrozen_of_eq rfl⟩, h⟩

theorem own_release (h : Held task me w) :
    DestroyOwn task me w (env.exec (.releaseLock me) w).2 ∧
      LiveLocked task (env.exec (.releaseLock me) w).2 := by
  have hlive : LiveLocked task (env.exec (.releaseLock me) w).2 := by
    intro m' hm' hlive'
    obtain ⟨m, hm, rfl⟩ := Option.map_eq_some_iff.mp hm'
    by_cases howner : m.owner = me
    · rw [if_pos howner] at hlive'
      cases hlive'
    · rw [if_neg howner] at hlive'
      have hlock := (h.1 m hm hlive').1
      rw [h.2] at hlock
      exact absurd (Option.some.inj hlock).symm howner
  refine ⟨⟨fun other hne hother => ?_, fun _ => hlive, fun _ => keepsFrozen_of_eq rfl⟩, hlive⟩
  rw [h.2] at hother
  exact absurd (Option.some.inj hother).symm hne

theorem own_prepare (h : Held task me w) (htask : (task me).IsMerge) (sources : Finset String) :
    DestroyOwn task me w (env.exec (.prepare me sources) w).2 ∧
      Held task me (env.exec (.prepare me sources) w).2 := by
  have hlive : LiveLocked task (env.exec (.prepare me sources) w).2 := by
    intro m hm _
    cases hm
    exact ⟨h.2, htask⟩
  exact ⟨⟨fun _ _ hother => hother, fun _ => hlive, fun _ => keepsFrozen_of_eq rfl⟩, hlive, h.2⟩

end Assertions

/-! ### The programs keep to the lock -/

section Programs

variable {task : ι → DestroyTask} {me : ι} {env : DestroyEnv}

theorem takes_iff {op : DestroyOp ι} {w w' : World ι} {r : Except DestroyError op.Ret} :
    env.Takes op w r w' ↔ r = (env.exec op w).1 ∧ w' = (env.exec op w).2 := by
  rw [DestroyEnv.Takes, Prod.ext_iff]
  exact and_congr eq_comm eq_comm

/-- A program that keeps to quiet operations can run without the lock. -/
theorem triple_quiet {α : Type} {p : DestroyProg ι α}
    (hp : p.run.Only fun op => op.Quiet ∧ (op.Removes → (task me).IsPrune)) :
    Triple env.Takes (DestroyRely task me) (DestroyOwn task me) (LiveLocked task) p
      (fun _ => LiveLocked task) (LiveLocked task) := by
  refine triple_of_only stable_liveLocked ?_ (fun _ h => h) hp
  rintro op w r w' ⟨hquiet, hremoves⟩ hlive hexec
  obtain ⟨-, rfl⟩ := takes_iff.mp hexec
  have hown : DestroyOwn task me w (env.exec op w).2 := own_of_quiet hquiet fun htask =>
    keepsFrozen_of_not_removes fun hop => htask (hremoves hop)
  exact ⟨hown, hown.2.1 hlive⟩

/-- The lock is held while the program runs that is under it. -/
theorem triple_withEpochLock {p : DestroyProg ι Unit}
    (hp : Meets env.Takes (DestroyRely task me) (DestroyOwn task me) (fun _ => Held task me) p.run
      (Held task me)) :
    Triple env.Takes (DestroyRely task me) (DestroyOwn task me) (LiveLocked task)
      (withEpochLock me p) (fun _ => LiveLocked task) (LiveLocked task) := by
  refine triple_bind stable_liveLocked (triple_attempt stable_liveLocked (fun _ => stable_held)
    stable_liveLocked ?_) fun _ => ?_
  · intro w r w' hlive hexec
    obtain ⟨rfl, rfl⟩ := takes_iff.mp hexec
    exact own_acquire hlive
  · have hrelease : Meets env.Takes (DestroyRely task me) (DestroyOwn task me)
        (fun _ => LiveLocked task) (attempt (DestroyOp.releaseLock me) : DestroyProg ι Unit).run
        (Held task me) := by
      refine meets_call stable_held (fun _ => LiveLocked task) ?_ fun r =>
        meets_done stable_liveLocked fun _ h => h
      intro w r w' hheld hexec
      obtain ⟨-, rfl⟩ := takes_iff.mp hexec
      exact own_release hheld
    refine meets_bind hp fun r => meets_bind hrelease fun _ => ?_
    refine meets_done stable_liveLocked fun w h => ?_
    rcases r with e | a
    · exact h
    · exact h

/-- A program that keeps to quiet operations can hold the lock. -/
theorem meets_held {α : Type} {p : DestroyProg ι α} (htask : ¬ (task me).IsMerge)
    (hp : p.run.Only DestroyOp.Quiet) :
    Meets env.Takes (DestroyRely task me) (DestroyOwn task me) (fun _ => Held task me) p.run
      (Held task me) := by
  refine meets_of_only stable_held ?_ hp
  intro op w r w' hquiet hheld hexec
  obtain ⟨-, rfl⟩ := takes_iff.mp hexec
  have hown : DestroyOwn task me w (env.exec op w).2 := own_of_quiet hquiet fun _ name hfrozen =>
    absurd hfrozen (not_frozen_of_held hheld htask name)
  exact ⟨hown, hown.2.1 hheld.1, (quiet_exec env w hquiet).1.trans hheld.2⟩

omit [DecidableEq ι] in
theorem only_guard {K : DestroyOp ι → Prop} (hK : K .readMergeState) (name : String) :
    (guardDestroyAgainstInflightMerge name).run.Only K := by
  refine only_bind (only_attempt hK) fun m => ?_
  cases m with
  | none => trivial
  | some m =>
    simp only
    split_ifs <;> trivial

omit [DecidableEq ι] in
theorem only_destroyLocked (name : String) (answer : Option Bool) :
    (destroyLocked name answer : DestroyProg ι Unit).run.Only DestroyOp.Quiet := by
  refine only_bind (only_attempt trivial) fun status => ?_
  refine only_bind (only_attempt trivial) fun count => ?_
  split_ifs
  · trivial
  · trivial
  · refine only_bind (only_ignoreError (only_attempt trivial)) fun _ => only_attempt trivial

theorem triple_destroy (name : String) (answer : Option Bool) (htask : ¬ (task me).IsMerge) :
    Triple env.Takes (DestroyRely task me) (DestroyOwn task me) (LiveLocked task)
      (destroy env me name answer) (fun _ => LiveLocked task) (LiveLocked task) := by
  rw [destroy]
  split_ifs
  · exact triple_throw stable_liveLocked fun _ h => h
  refine triple_bind stable_liveLocked
    (triple_quiet (only_attempt ⟨trivial, False.elim⟩)) fun there => ?_
  split_ifs
  · refine triple_bind stable_liveLocked (triple_quiet (only_guard ⟨trivial, False.elim⟩ name))
      fun _ => triple_withEpochLock (meets_held htask (only_destroyLocked name answer))
  · exact triple_pure stable_liveLocked fun _ h => h

section Prune

omit [DecidableEq ι]

theorem only_healAll (names : List String) :
    (healAll names : DestroyProg ι Unit).run.Only DestroyOp.Quiet := by
  induction names with
  | nil => trivial
  | cons name names ih => exact only_bind (only_attempt trivial) fun _ => ih

theorem only_collectEmpty (names : List String) :
    (collectEmpty env names : DestroyProg ι (List String)).run.Only DestroyOp.Quiet := by
  induction names with
  | nil => trivial
  | cons name names ih =>
    refine only_bind ?_ fun _ => only_bind ih fun _ => trivial
    rw [askEmpty]
    split_ifs
    · trivial
    · exact only_asOption (only_attempt trivial)

theorem only_pruneEmpty (names : List String) :
    (pruneEmpty names : DestroyProg ι Unit).run.Only DestroyOp.Quiet := by
  induction names with
  | nil => trivial
  | cons name names ih => exact only_bind (only_ignoreError (only_attempt trivial)) fun _ => ih

theorem only_prune (force includeEmpty : Bool) :
    (prune env force includeEmpty : DestroyProg ι Unit).run.Only DestroyOp.Quiet := by
  refine only_bind (only_attempt trivial) fun names => only_bind (only_healAll names) fun _ => ?_
  have hremoval (empty : List String) :
      (if force then pruneEmpty empty else pure () : DestroyProg ι Unit).run.Only
        DestroyOp.Quiet := by
    split_ifs
    · exact only_pruneEmpty empty
    · trivial
  cases includeEmpty with
  | true => exact only_bind (only_collectEmpty names) hremoval
  | false => exact hremoval []

end Prune

/-- What a merge does under the lock. -/
theorem meets_merge (sources : Finset String)
    (change : FiniteMap RefKey GitOid → FiniteMap RefKey GitOid) (htask : (task me).IsMerge) :
    Meets env.Takes (DestroyRely task me) (DestroyOwn task me) (fun _ => Held task me)
      (do
        attempt (DestroyOp.prepare me sources)
        attempt (DestroyOp.mergeWork (ι := ι) change)
        attempt (DestroyOp.finishMerge (ι := ι)) : DestroyProg ι Unit).run (Held task me) := by
  refine meets_of_only stable_held (K := fun op =>
    (op.Quiet ∧ ¬ op.Removes) ∨ op = .prepare me sources) ?_ ?_
  · rintro op w r w' hop hheld hexec
    obtain ⟨-, rfl⟩ := takes_iff.mp hexec
    rcases hop with ⟨hquiet, hremoves⟩ | rfl
    · have hown : DestroyOwn task me w (env.exec op w).2 :=
        own_of_quiet hquiet fun _ => keepsFrozen_of_not_removes hremoves
      exact ⟨hown, hown.2.1 hheld.1, (quiet_exec env w hquiet).1.trans hheld.2⟩
    · exact own_prepare hheld htask sources
  · refine only_bind (only_attempt (Or.inr rfl)) fun _ => ?_
    exact only_bind (only_attempt (Or.inl ⟨trivial, id⟩)) fun _ =>
      only_attempt (Or.inl ⟨trivial, id⟩)

/-- Each task keeps to the lock. -/
theorem triple_task :
    Triple env.Takes (DestroyRely task me) (DestroyOwn task me) (LiveLocked task)
      ((task me).program env me) (fun _ => LiveLocked task) (LiveLocked task) := by
  cases htask : task me with
  | destroy name answer => exact triple_destroy name answer (by rw [htask]; exact id)
  | prune force includeEmpty =>
    refine triple_quiet ((only_prune force includeEmpty).mono fun op hop => ⟨hop, fun _ => ?_⟩)
    rw [htask]
    trivial
  | merge sources change =>
    exact triple_withEpochLock (meets_merge sources change (by rw [htask]; trivial))

end Programs

/-! ### Any number of processes -/

section Race

/-- The processes, before any of them has started. -/
def tasks (env : DestroyEnv) (task : ι → DestroyTask) (w : World ι) :
    Pool (DestroyOp ι) (fun op => Except DestroyError op.Ret)
      (fun _ : ι => Except DestroyError Unit) (World ι) :=
  ⟨fun me => ((task me).program env me).run, w⟩

/-- The prunes of a run remove no workspace while a live merge has it among its sources. -/
def PrunesUnfrozen (task : ι → DestroyTask)
    (events : List (Event ι (DestroyOp ι) (World ι))) : Prop :=
  ∀ e ∈ events, (task e.who).IsPrune → ∀ name, e.op = .backendDestroy name →
    e.before.Frozen name → e.before.workspaces.lookup name = none

variable {env : DestroyEnv} {task : ι → DestroyTask} {w : World ι}
  {events : List (Event ι (DestroyOp ι) (World ι))}
  {pool : Pool (DestroyOp ι) (fun op => Except DestroyError op.Ret)
    (fun _ : ι => Except DestroyError Unit) (World ι)}

theorem keepsFrozen_backendDestroy {name : String} :
    KeepsFrozen w (env.exec (.backendDestroy name) w).2 ↔
      (w.Frozen name → w.workspaces.lookup name = none) := by
  have herase (other : String) : (env.exec (.backendDestroy name) w).2.workspaces.lookup other =
      if other = name then none else w.workspaces.lookup other := FiniteMap.lookup_erase ..
  constructor
  · intro hkeeps hfrozen
    rw [← hkeeps name hfrozen, herase, if_pos rfl]
  · intro hgone other hfrozen
    rw [herase]
    split_ifs with heq
    · rw [heq] at hfrozen ⊢
      exact (hgone hfrozen).symm
    · rfl

/-- A run removes no frozen workspace exactly if its prunes do not. -/
theorem keepsFrozen_iff (hidle : ∀ m, w.merge = some m → m.live = false)
    (h : Run env.Takes (tasks env task w) events pool) :
    (∀ e ∈ events, KeepsFrozen e.before e.after) ↔ PrunesUnfrozen task events := by
  have hlive : LiveLocked task w := fun m hm hlive => by
    rw [hidle m hm] at hlive
    cases hlive
  have hown : ∀ e ∈ events, DestroyOwn task e.who e.before e.after :=
    (h.meets (fun me other hne w w' hown => ⟨hown.1 other hne, hown.2.1⟩)
      fun me => ⟨LiveLocked task, hlive, triple_task⟩).2
  refine forall_congr' fun e => forall_congr' fun he => ?_
  obtain ⟨r, hexec⟩ := h.exec_of_mem he
  have hafter : e.after = (env.exec e.op e.before).2 := (takes_iff.mp hexec).2
  by_cases htask : (task e.who).IsPrune
  · simp only [htask, forall_const]
    rw [hafter]
    by_cases hop : e.op.Removes
    · cases hremoval : e.op with
      | backendDestroy name =>
        rw [keepsFrozen_backendDestroy]
        constructor
        · rintro hgone other heq
          cases heq
          exact hgone
        · exact fun hgone => hgone name rfl
      | _ =>
        rw [hremoval] at hop
        exact hop.elim
    · refine iff_of_true (keepsFrozen_of_not_removes hop) fun name hremoval => ?_
      rw [hremoval] at hop
      exact absurd trivial hop
  · exact iff_of_true ((hown e he).2.2 htask) fun hprune => absurd hprune htask

/-- When a destroy and a prune are safe on their own, and in any run with merges. -/
theorem plain_destroy_safe (env : DestroyEnv) :
    (∀ (me : ι) (name : String) (answer : Option Bool) (w : World ι),
      DestroysSafely env me name answer w ↔ DestroyHeeds env name answer w) ∧
    (∀ (force includeEmpty : Bool) (w : World ι),
      PrunesSafely env force includeEmpty w ↔ PruneHeeds env force includeEmpty w) ∧
    ∀ (task : ι → DestroyTask) (w : World ι) (events : List (Event ι (DestroyOp ι) (World ι)))
      (pool : Pool (DestroyOp ι) (fun op => Except DestroyError op.Ret)
        (fun _ : ι => Except DestroyError Unit) (World ι)),
      (∀ m, w.merge = some m → m.live = false) → Run env.Takes (tasks env task w) events pool →
        ((∀ e ∈ events, KeepsFrozen e.before e.after) ↔ PrunesUnfrozen task events) :=
  ⟨fun _ _ _ _ => destroysSafely_iff, fun _ _ _ => prunesSafely_iff,
    fun _ _ _ _ => keepsFrozen_iff⟩

end Race

/-! ### A commit and its revert -/

/-- A history whose last commit takes the changes of the one before it back. -/
def revertedCommits : CommitStore :=
  sampleCommits.add (sampleBlob 3) (sampleCommit 0 [sampleBlob 2]) third_not_mem (by decide)

noncomputable def revertedEnv : DestroyEnv where
  commits := revertedCommits
  ancestry := ⟨fun a b => @decide (revertedCommits.IsAncestor a b) (Classical.propDecidable _),
    by simp⟩
  probes := sampleProbes
  metadata := plainMetadata
  stateCommit := Worktree.head
  gitCompatRefs := true
  destroyOperation _ _ := sampleBlob 9
  defaultWorkspace := "default"

/-- A workspace whose HEAD is the last commit, at an epoch that is the first one. -/
def revertedWorld (ι : Type) : World ι where
  refs := ((∅ : FiniteMap RefKey GitOid).insert .epochCurrent (sampleBlob 1)).insert
    (.wsEpoch "alice") (sampleBlob 1)
  workspaces := Finmap.singleton "alice" (sampleWorktree (sampleBlob 3) 0)
  merge := none
  lock := none

/-- One process merges the workspace and the other one destroys it. -/
def raceTask : Bool → DestroyTask
  | true => .merge {"alice"} id
  | false => .destroy "alice" none

/-- A merge that prepares after a destroy has looked for one keeps its source. -/
theorem plain_destroy_safe_race : ∃ events pool,
    Run revertedEnv.Takes (tasks revertedEnv raceTask (revertedWorld Bool)) events pool ∧
      pool.progs false = .done (.error .lockBusy) ∧ pool.state.Frozen "alice" ∧
      ∀ e ∈ events, KeepsFrozen e.before e.after := by
  have hguard : Prog.Runs revertedEnv.Takes (destroy revertedEnv false "alice" none).run
      (revertedWorld Bool) (withEpochLock false (destroyLocked "alice" none)).run
      (revertedWorld Bool) :=
    .step (show revertedEnv.Takes (.pathExists "alice") _ (.ok true) _ from rfl) <|
      .step (show revertedEnv.Takes .readMergeState _ (.ok none) _ from rfl) <| .refl _ _
  have hprepare : ∃ rest, Prog.Runs revertedEnv.Takes (merge true {"alice"} id).run
      (revertedWorld Bool) rest
      { revertedWorld Bool with merge := some ⟨true, {"alice"}, false, true⟩, lock := some true } :=
    ⟨_, .step (show revertedEnv.Takes (.acquireLock true) _ (.ok ()) _ from rfl) <|
      .step (show revertedEnv.Takes (.prepare true {"alice"}) _ (.ok ()) _ from rfl) <| .refl _ _⟩
  obtain ⟨rest, hprepare⟩ := hprepare
  have hnil : Run revertedEnv.Takes (tasks revertedEnv raceTask (revertedWorld Bool)) []
      (tasks revertedEnv raceTask (revertedWorld Bool)) := .nil
  obtain ⟨looked, hlooked⟩ := hnil.runs (i := false) hguard
  obtain ⟨prepared, hprepared⟩ := hlooked.runs (i := true) hprepare
  have hbusy := hprepared.step (i := false) rfl
    (show revertedEnv.Takes (.acquireLock false) _ (.error .lockBusy) _ from rfl)
  refine ⟨_, _, hbusy, rfl, ⟨_, rfl, rfl, rfl, Finset.mem_singleton_self _⟩, ?_⟩
  refine ((plain_destroy_safe revertedEnv).2.2 raceTask _ _ _ (fun m hm => ?_) hbusy).mpr ?_
  · cases hm
  · intro e _ hprune
    cases hwho : e.who with
    | true =>
      rw [hwho] at hprune
      exact hprune.elim
    | false =>
      rw [hwho] at hprune
      exact hprune.elim

/-- The commits of a workspace are lost whose changes were taken back. -/
theorem not_plain_destroy_safe :
    ¬ DestroysSafely revertedEnv () "alice" none (revertedWorld Unit) := by
  rw [destroysSafely_iff]
  intro hheeds
  have hlookup : (revertedWorld Unit).workspaces.lookup "alice" =
      some (sampleWorktree (sampleBlob 3) 0) := Finmap.lookup_singleton_eq
  have hhealed : revertedEnv.healed (revertedWorld Unit) "alice" (sampleWorktree (sampleBlob 3) 0) =
      ⟨"alice", some (sampleBlob 1), sampleWorktree (sampleBlob 3) 0⟩ := by
    have hepoch : (revertedWorld Unit).epoch = some (sampleBlob 1) := by decide +kernel
    have hws : (revertedWorld Unit).refs.lookup (.wsEpoch "alice") = some (sampleBlob 1) := by
      decide +kernel
    rw [DestroyEnv.healed, World.workspace, hws, hepoch, healEpochRef, if_neg]
    exact fun h => h.1 rfl
  have hover : Overlooked revertedEnv (sampleWorktree (sampleBlob 3) 0) (sampleBlob 1) :=
    ⟨by decide +kernel, computePatchset_eq_nil.mp (by decide +kernel)⟩
  have hsecond : revertedCommits.IsAncestor (sampleBlob 1) (sampleBlob 2) :=
    NodeStore.adds_add.isAncestor
      (NodeStore.adds_add.parentOf_self List.mem_cons_self : sampleCommits.ParentOf _ _).isAncestor
  have hthird : revertedCommits.IsAncestor (sampleBlob 2) (sampleBlob 3) :=
    (NodeStore.adds_add.parentOf_self List.mem_cons_self :
      revertedCommits.ParentOf _ _).isAncestor
  obtain ⟨⟨key, oid, hkey, hkeeps, habove⟩, -⟩ :=
    (hheeds _ hlookup (by decide) (by rintro ⟨m, hm, -⟩; cases hm) rfl).1
      ⟨hhealed ▸ hover, by decide⟩
  have hoid : oid = sampleBlob 1 := by
    rw [revertedWorld, FiniteMap.lookup_insert, FiniteMap.lookup_insert] at hkey
    split_ifs at hkey
    · exact (Option.some.inj hkey).symm
    · exact (Option.some.inj hkey).symm
    · cases hkey
  rw [hoid] at habove
  exact absurd ((hsecond.trans hthird).antisymm habove) (by decide)

end Maw.PlainDestroy
