import Maw.Backend.OverlayStore
import Maw.Core.Commits

/-!
# The lives of snapshots

The snapshot of an epoch has to stay while a workspace is mounted over it. It does in runs in which
the operations take turns: each one runs to its end before the next one starts. A workspace must not
be created again while its upper layer is there, the collection must know all epochs that workspaces
are on, and no call may fail but some.

## Main definitions

* `Alive` — the workspaces have the snapshots that they were written on.
* `Sound` — the invariant of whole turns.
* `Ready` — what an operation has to find.
* `Turns` — operations that take turns.

## Main results

* `alive_of_turns` — all workspaces stay alive, and a creation that fails removes no upper layer.
* `not_alive_of_gc` — the collection removes the snapshot of a workspace.
-/

open Interleaved

namespace Maw.OverlayBackend

section Alive

variable (env : OverlayEnv)

/-- The directory of a snapshot has the files of the epoch. -/
def Holds (epoch : GitOid) (dir : SnapshotDir) : Prop :=
  ∀ p entry, dir.lookup p = some (.file entry) ↔ (env.treeOf epoch).lookup p = some entry

/-- The archive of an epoch has its files, and nothing at the place of the reference count. -/
def ArchiveExact (epoch : GitOid) : Prop :=
  ∃ members, env.archive epoch = some members ∧ (members.map (·.1)).Nodup ∧
    refcountPath ∉ members.map (·.1) ∧
      ∀ p entry, (p, some entry) ∈ members ↔ (env.treeOf epoch).lookup p = some entry

/-- The workspaces that are recorded on an epoch. -/
def OverlayState.recordedOn (s : OverlayState) (epoch : GitOid) : Finset String :=
  s.cows.keys.filter fun name => (s.cow name).upper.isSome ∧ (s.cow name).epochFile = some epoch

/-- Every workspace is recorded on the epoch that its upper layer was written on, and the snapshot
of that epoch is there, with its files and the number of its workspaces. -/
def Alive (s : OverlayState) : Prop :=
  ∀ name edits, (s.cow name).upper = some edits → ∃ epoch, (s.cow name).epochFile = some epoch ∧
    (∀ edit ∈ edits, edit.epoch = epoch) ∧ ∃ dir, s.epochs.lookup epoch = some dir ∧
      Holds env epoch dir ∧ dir.refcount env = (s.recordedOn epoch).card

/-- The state between turns: the directories of workspaces and of snapshots are complete, the counts
are right, and mounts are over recorded epochs. -/
structure Sound (s : OverlayState) : Prop where
  cows : ∀ name cow, s.cows.lookup name = some cow → ∃ edits epoch, cow.upper = some edits ∧
    cow.epochFile = some epoch ∧ (∀ edit ∈ edits, edit.epoch = epoch) ∧ epoch ∈ s.epochs
  snapshots : ∀ epoch dir, s.epochs.lookup epoch = some dir → Holds env epoch dir ∧
    ArchiveExact env epoch ∧ dir.refcount env = (s.recordedOn epoch).card
  mounts : ∀ name epoch, s.mounts.lookup name = some epoch → name ∈ s.mountPoints ∧
    ∃ cow, s.cows.lookup name = some cow ∧ cow.epochFile = some epoch

/-- What an operation has to find: a workspace that is created is new or mounted, and its epoch can
be archived and counted; the collection knows the epochs of all workspaces. -/
def Ready (s : OverlayState) : OverlayTask → Prop
  | .create name epoch => name ∈ s.mounts ∨ (name ∉ s.cows ∧ ArchiveExact env epoch ∧
      (s.recordedOn epoch).card + 1 < 2 ^ 32)
  | .gc => ∀ name cow epoch, s.cows.lookup name = some cow → cow.epochFile = some epoch →
      epoch ∈ s.referenced
  | _ => True

/-- The calls that may fail: the creation of an upper layer, a mount, the lists of the collection,
and the read of a file that is missing. -/
def OverlayOp.MayFail (s : OverlayState) : OverlayOp → Prop
  | .createUpper _ => True
  | .mount _ _ => True
  | .listReferenced => True
  | .listSnapshots => True
  | .readWorkspaceEpoch name => (s.cow name).epochFile = none
  | _ => False

/-- A call that does not fail unless it may. -/
def steadyExec (op : OverlayOp) (s : OverlayState) (r : Except OverlayError op.Ret)
    (s' : OverlayState) : Prop :=
  op.exec env s r s' ∧ ((∃ a, r = .ok a) ∨ op.MayFail s)

end Alive

section State

variable {env : OverlayEnv} {s s' : OverlayState} {name : String} {epoch : GitOid}

theorem cow_of_lookup {cow : CowDir} (h : s.cows.lookup name = some cow) : s.cow name = cow := by
  rw [OverlayState.cow, h, Option.getD_some]

theorem cow_of_not_mem (h : name ∉ s.cows) : s.cow name = ⟨none, false, none⟩ := by
  rw [OverlayState.cow, Finmap.lookup_eq_none.mpr h, Option.getD_none]

theorem snapshot_of_lookup {dir : SnapshotDir} (h : s.epochs.lookup epoch = some dir) :
    s.snapshot epoch = dir := by
  rw [OverlayState.snapshot, h, Option.getD_some]

theorem snapshot_of_not_mem (h : epoch ∉ s.epochs) : s.snapshot epoch = ∅ := by
  rw [OverlayState.snapshot, Finmap.lookup_eq_none.mpr h, Option.getD_none]

theorem mem_recordedOn : name ∈ s.recordedOn epoch ↔ ∃ cow, s.cows.lookup name = some cow ∧
    cow.upper.isSome = true ∧ cow.epochFile = some epoch := by
  rw [OverlayState.recordedOn, Finset.mem_filter, Finmap.mem_keys]
  constructor
  · rintro ⟨hmem, hupper, hfile⟩
    obtain ⟨cow, hcow⟩ := Finmap.mem_iff.mp hmem
    rw [cow_of_lookup hcow] at hupper hfile
    exact ⟨cow, hcow, hupper, hfile⟩
  · rintro ⟨cow, hcow, hupper, hfile⟩
    rw [cow_of_lookup hcow]
    exact ⟨FiniteMap.mem_of_lookup hcow, hupper, hfile⟩

theorem alive_of_sound (h : Sound env s) : Alive env s := by
  intro name edits hupper
  cases hcow : s.cows.lookup name with
  | none =>
    rw [OverlayState.cow, hcow, Option.getD_none] at hupper
    cases hupper
  | some cow =>
    rw [cow_of_lookup hcow] at hupper ⊢
    obtain ⟨edits', epoch, hupper', hfile, hedits, hmem⟩ := h.cows name cow hcow
    rw [hupper] at hupper'
    obtain rfl := Option.some.inj hupper'
    obtain ⟨dir, hdir⟩ := Finmap.mem_iff.mp hmem
    obtain ⟨hholds, -, hcount⟩ := h.snapshots epoch dir hdir
    exact ⟨epoch, hfile, hedits, dir, hdir, hholds, hcount⟩

/-- A snapshot that is written back as it is. -/
theorem setSnapshot_self {dir : SnapshotDir} (h : s.epochs.lookup epoch = some dir) :
    s.setSnapshot epoch dir = s := by
  have hepochs : s.epochs.insert epoch dir = s.epochs := by
    refine Finmap.ext_lookup fun e => ?_
    rw [FiniteMap.lookup_insert]
    split_ifs with heq
    · rw [heq, h]
    · rfl
  rw [OverlayState.setSnapshot, hepochs]

@[simp]
theorem snapshot_setSnapshot (dir : SnapshotDir) :
    (s.setSnapshot epoch dir).snapshot epoch = dir := by
  rw [OverlayState.snapshot, OverlayState.setSnapshot, Finmap.lookup_insert, Option.getD_some]

@[simp]
theorem setSnapshot_setSnapshot (dir dir' : SnapshotDir) :
    (s.setSnapshot epoch dir).setSnapshot epoch dir' = s.setSnapshot epoch dir' := by
  rw [OverlayState.setSnapshot, OverlayState.setSnapshot, OverlayState.setSnapshot,
    Finmap.insert_insert]

theorem mem_setSnapshot (dir : SnapshotDir) : epoch ∈ (s.setSnapshot epoch dir).epochs :=
  FiniteMap.mem_of_lookup (Finmap.lookup_insert _)

@[simp]
theorem cow_setCow (cow : CowDir) : (s.setCow name cow).cow name = cow := by
  rw [OverlayState.cow, OverlayState.setCow, Finmap.lookup_insert, Option.getD_some]

@[simp]
theorem setCow_setCow (cow cow' : CowDir) :
    (s.setCow name cow).setCow name cow' = s.setCow name cow' := by
  rw [OverlayState.setCow, OverlayState.setCow, OverlayState.setCow, Finmap.insert_insert]

end State

/-! ### Calls that do not fail -/

section Steady

variable {env : OverlayEnv} {s s' : OverlayState} (op : OverlayOp)

theorem steady_attempt (hop : ¬ op.MayFail s) {r : Except OverlayError op.Ret}
    (h : Prog.Runs (steadyExec env) (attempt op : OverlayProg op.Ret).run s (.done r) s') :
    ∃ a, r = .ok a ∧ op.exec env s (.ok a) s' := by
  obtain ⟨hexec, ⟨a, rfl⟩ | hmay⟩ := runs_attempt_done.mp h
  · exact ⟨a, rfl, hexec⟩
  · exact absurd hmay hop

theorem steady_bind {α : Type} (hop : ¬ op.MayFail s) {f : op.Ret → OverlayProg α}
    {r : Except OverlayError α}
    (h : Prog.Runs (steadyExec env) (attempt op >>= f).run s (.done r) s') :
    ∃ a s₁, op.exec env s (.ok a) s₁ ∧ Prog.Runs (steadyExec env) (f a).run s₁ (.done r) s' :=
  runs_bind_of_ok (fun _ _ hrun => steady_attempt op hop hrun) h

theorem changes_ok {u : Unit} {P : Prop} (h : OverlayOp.Changes s s' (.ok u) P) : P := by
  rcases h with ⟨-, hP⟩ | ⟨⟨e, he⟩, -⟩
  · exact hP
  · cases he

theorem answers_ok {α : Type} {a b : α} (h : OverlayOp.Answers s s' (.ok a) b) :
    s' = s ∧ a = b :=
  ⟨h.1, Except.ok.inj h.2⟩

theorem reads_ok {α : Type} {a : α} {P : α → Prop} (h : OverlayOp.Reads s s' (.ok a) P) :
    s' = s ∧ P a := by
  obtain ⟨rfl, ⟨b, heq, hP⟩ | ⟨e, he⟩⟩ := h
  · exact ⟨rfl, Except.ok.inj heq ▸ hP⟩
  · cases he

end Steady

/-! ### Snapshots in one turn -/

section Snapshots

variable {env : OverlayEnv} {s s' : OverlayState} {epoch : GitOid}

theorem steady_extractAll {members : List (Path × Option MaterializedEntry)}
    {r : Except OverlayError Unit} (hmem : epoch ∈ s.epochs) (hnodup : (members.map (·.1)).Nodup)
    (h : Prog.Runs (steadyExec env) (extractAll epoch members).run s (.done r) s') :
    r = .ok () ∧ ∃ dir, s' = s.setSnapshot epoch dir ∧
      (∀ p entry, (p, entry) ∈ members →
        dir.lookup p = some (entry.elim SnapshotEntry.dir SnapshotEntry.file)) ∧
      ∀ p, p ∉ members.map (·.1) → dir.lookup p = (s.snapshot epoch).lookup p := by
  induction members generalizing s with
  | nil =>
    obtain ⟨heq, rfl⟩ := runs_done h
    obtain ⟨dir, hdir⟩ := Finmap.mem_iff.mp hmem
    refine ⟨Prog.done.inj heq, dir, (setSnapshot_self hdir).symm, fun p entry hp => ?_,
      fun p _ => by rw [snapshot_of_lookup hdir]⟩
    exact absurd hp List.not_mem_nil
  | cons member members ih =>
    obtain ⟨path, entry⟩ := member
    obtain ⟨u, s₁, hextract, hrest⟩ := steady_bind (.extract epoch path entry) id h
    obtain ⟨-, rfl⟩ := changes_ok hextract
    rw [List.map_cons, List.nodup_cons] at hnodup
    obtain ⟨hr, dir, rfl, hin, hout⟩ := ih (mem_setSnapshot _) hnodup.2 hrest
    refine ⟨hr, dir, setSnapshot_setSnapshot _ _, fun p entry' hp => ?_, fun p hp => ?_⟩
    · rcases List.mem_cons.mp hp with heq | hp
      · obtain ⟨rfl, rfl⟩ := Prod.mk.inj heq
        rw [hout p hnodup.1, snapshot_setSnapshot, Finmap.lookup_insert]
      · exact hin p entry' hp
    · rw [List.map_cons, List.mem_cons, not_or] at hp
      rw [hout p hp.2, snapshot_setSnapshot, FiniteMap.lookup_insert, if_neg hp.1]

theorem lookup_of_not_hasContent {dir : SnapshotDir} (h : dir.hasContent = false) {p : Path}
    (hp : p ≠ refcountPath) : dir.lookup p = none := by
  rw [SnapshotDir.hasContent, decide_eq_false_iff_not, not_not] at h
  by_contra hne
  obtain ⟨entry, hentry⟩ := Option.ne_none_iff_exists'.mp hne
  exact hp (Finset.mem_singleton.mp (h (Finmap.mem_keys.mpr (FiniteMap.mem_of_lookup hentry))))

theorem mem_of_hasContent (h : (s.snapshot epoch).hasContent = true) : epoch ∈ s.epochs := by
  by_contra hnot
  rw [snapshot_of_not_mem hnot] at h
  cases h

/-- After it was ensured, the snapshot has the files of the epoch; the count stays. -/
theorem steady_ensureEpochSnapshot {r : Except OverlayError Unit}
    (harchive : ArchiveExact env epoch)
    (hholds : ∀ dir, s.epochs.lookup epoch = some dir → Holds env epoch dir)
    (h : Prog.Runs (steadyExec env) (ensureEpochSnapshot epoch).run s (.done r) s') :
    r = .ok () ∧ ∃ dir, s' = s.setSnapshot epoch dir ∧ Holds env epoch dir ∧
      dir.refcount env = (s.snapshot epoch).refcount env := by
  obtain ⟨found, s₁, hfound, hrest⟩ := steady_bind (.hasContent epoch) id h
  obtain ⟨rfl, rfl⟩ := answers_ok hfound
  cases hcontent : (s₁.snapshot epoch).hasContent with
  | true =>
    rw [hcontent] at hrest
    obtain ⟨heq, rfl⟩ := runs_done hrest
    obtain ⟨dir, hdir⟩ := Finmap.mem_iff.mp (mem_of_hasContent hcontent)
    rw [snapshot_of_lookup hdir]
    exact ⟨Prog.done.inj heq, dir, (setSnapshot_self hdir).symm, hholds dir hdir, rfl⟩
  | false =>
    rw [hcontent] at hrest
    obtain ⟨members, hmembers, hnodup, hpath, hfiles⟩ := harchive
    obtain ⟨u, s₂, hcreate, hextract⟩ := steady_bind (.createSnapshotDir epoch) id hrest
    obtain rfl := changes_ok hcreate
    have hall {r : Except OverlayError Unit} {s' : OverlayState}
        (hrun : Prog.Runs (steadyExec env) (do
          extractAll epoch (← attempt (OverlayOp.archive epoch)) : OverlayProg Unit).run
            (s₁.setSnapshot epoch (s₁.snapshot epoch)) (.done r) s') :
        r = .ok () ∧ ∃ dir, s' = s₁.setSnapshot epoch dir ∧ Holds env epoch dir ∧
          dir.refcount env = (s₁.snapshot epoch).refcount env := by
      obtain ⟨members', s₃, harchive, hrest⟩ := steady_bind (.archive epoch) id hrun
      obtain ⟨rfl, heq⟩ := reads_ok harchive
      rw [hmembers] at heq
      obtain rfl := Option.some.inj heq
      obtain ⟨hr, dir, rfl, hin, hout⟩ := steady_extractAll (mem_setSnapshot _) hnodup hrest
      rw [snapshot_setSnapshot] at hout
      refine ⟨hr, dir, setSnapshot_setSnapshot _ _, fun p entry => ?_, ?_⟩
      · by_cases hp : p ∈ members.map (·.1)
        · obtain ⟨⟨p', entry'⟩, hmem, rfl⟩ := List.mem_map.mp hp
          rw [hin p' entry' hmem, ← hfiles]
          cases entry' with
          | none =>
            refine iff_of_false (by simp) fun hsome => ?_
            have heq := List.inj_on_of_nodup_map hnodup hmem hsome rfl
            cases heq
          | some entry' =>
            rw [Option.elim_some, Option.some.injEq, SnapshotEntry.file.injEq]
            refine ⟨fun heq => heq ▸ hmem, fun hsome => ?_⟩
            have heq := List.inj_on_of_nodup_map hnodup hmem hsome rfl
            cases heq
            rfl
        · rw [hout p hp, ← hfiles]
          refine iff_of_false (fun hold => ?_) fun hmem => hp (List.mem_map.mpr ⟨_, hmem, rfl⟩)
          by_cases hcount : p = refcountPath
          · have hmem : epoch ∈ s₁.epochs := by
              by_contra hnot
              rw [snapshot_of_not_mem hnot] at hold
              cases hold
            obtain ⟨old, hlookup⟩ := Finmap.mem_iff.mp hmem
            rw [snapshot_of_lookup hlookup] at hold
            have htree := (hholds old hlookup p entry).mp hold
            exact hpath (List.mem_map.mpr ⟨_, (hfiles p entry).mpr htree, hcount⟩)
          · rw [lookup_of_not_hasContent hcontent hcount] at hold
            cases hold
      · rw [SnapshotDir.refcount, SnapshotDir.refcount, hout refcountPath hpath]
    rcases runs_onError_cases hextract with ⟨u', rfl, hrun⟩ | ⟨e, s₃, r', rfl, hrun, -⟩
    · exact ⟨rfl, (hall hrun).2⟩
    · cases (hall hrun).1

theorem steady_removeSnapshot {r : Except OverlayError Unit}
    (h : Prog.Runs (steadyExec env) (removeSnapshot epoch).run s (.done r) s') :
    r = .ok () ∧ s' = { s with epochs := s.epochs.erase epoch } := by
  obtain ⟨u, s₁, hentries, hrest⟩ := steady_bind (.removeSnapshotEntries epoch) id h
  obtain ⟨u', hr, hdir⟩ := steady_attempt (.removeSnapshotDir epoch) id hrest
  refine ⟨hr, ?_⟩
  rw [changes_ok hdir]
  rcases hentries with rfl | ⟨-, dir, -, rfl⟩
  · rfl
  · rw [OverlayState.setSnapshot, FiniteMap.erase_insert]

/-- The number in the place of the reference count. -/
def recount (dir : SnapshotDir) (count : ℕ) : SnapshotDir :=
  dir.insert refcountPath (.refcount count)

theorem refcount_recount (dir : SnapshotDir) (count : ℕ) :
    (recount dir count).refcount env = count := by
  rw [SnapshotDir.refcount, recount, Finmap.lookup_insert]

theorem holds_recount {dir : SnapshotDir} (harchive : ArchiveExact env epoch)
    (h : Holds env epoch dir) (count : ℕ) : Holds env epoch (recount dir count) := by
  intro p entry
  rw [recount, FiniteMap.lookup_insert]
  split_ifs with hp
  · refine iff_of_false (by simp) fun htree => ?_
    obtain ⟨members, -, -, hpath, hfiles⟩ := harchive
    exact hpath (List.mem_map.mpr ⟨_, (hfiles p entry).mpr htree, hp⟩)
  · exact h p entry

theorem recount_recount (dir : SnapshotDir) (count count' : ℕ) :
    recount (recount dir count) count' = recount dir count' :=
  Finmap.insert_insert _

theorem steady_epochRefcountInc {r : Except OverlayError Unit}
    (h : Prog.Runs (steadyExec env) (epochRefcountInc epoch).run s (.done r) s') :
    r = .ok () ∧ s' = s.setSnapshot epoch
      (recount (s.snapshot epoch) (((s.snapshot epoch).refcount env + 1) % 2 ^ 32)) := by
  obtain ⟨count, s₁, hread, hrest₁⟩ := steady_bind (.readRefcount epoch) id h
  obtain ⟨rfl, rfl⟩ := answers_ok hread
  obtain ⟨u, s₂, htruncate, hrest₂⟩ := steady_bind (.truncateRefcount epoch) id hrest₁
  obtain ⟨-, rfl⟩ := changes_ok htruncate
  obtain ⟨u', hr, hwrite⟩ := steady_attempt (.writeRefcount epoch _) id hrest₂
  obtain ⟨-, rfl⟩ := changes_ok hwrite
  refine ⟨hr, ?_⟩
  rw [setSnapshot_setSnapshot, snapshot_setSnapshot]
  exact congrArg _ (recount_recount _ _ _)

theorem steady_epochRefcountDec {r : Except OverlayError ℕ}
    (h : Prog.Runs (steadyExec env) (epochRefcountDec epoch).run s (.done r) s') :
    r = .ok ((s.snapshot epoch).refcount env - 1) ∧ s' = s.setSnapshot epoch
      (recount (s.snapshot epoch) ((s.snapshot epoch).refcount env - 1)) := by
  obtain ⟨count, s₁, hread, hrest₁⟩ := steady_bind (.readRefcount epoch) id h
  obtain ⟨rfl, rfl⟩ := answers_ok hread
  obtain ⟨u, s₂, htruncate, hrest₂⟩ := steady_bind (.truncateRefcount epoch) id hrest₁
  obtain ⟨-, rfl⟩ := changes_ok htruncate
  obtain ⟨u', s₃, hwrite, hrest₃⟩ := steady_bind (.writeRefcount epoch _) id hrest₂
  obtain ⟨-, rfl⟩ := changes_ok hwrite
  obtain ⟨heq, rfl⟩ := runs_done hrest₃
  refine ⟨Prog.done.inj heq, ?_⟩
  rw [setSnapshot_setSnapshot, snapshot_setSnapshot]
  exact congrArg _ (recount_recount _ _ _)

end Snapshots

/-! ### Mounts in one turn -/

section Mounts

variable {env : OverlayEnv} {s s' : OverlayState} {name : String} {epoch : GitOid}

theorem steady_unmountOverlay {r : Except OverlayError Unit}
    (hmount : name ∈ s.mounts → name ∈ s.mountPoints)
    (h : Prog.Runs (steadyExec env) (unmountOverlay name).run s (.done r) s') :
    r = .ok () ∧ s' = { s with mounts := s.mounts.erase name } := by
  have hnothing (hnot : name ∉ s.mounts) : s = { s with mounts := s.mounts.erase name } := by
    rw [FiniteMap.erase_of_not_mem hnot]
  obtain ⟨found, s₁, hfound, hrest₁⟩ := steady_bind (.mountPointExists name) id h
  obtain ⟨rfl, rfl⟩ := answers_ok hfound
  by_cases hpoint : name ∈ s₁.mountPoints
  · rw [decide_eq_true hpoint] at hrest₁
    obtain ⟨mounted, s₂, hmounted, hrest₂⟩ := steady_bind (.isOverlayMounted name) id hrest₁
    obtain ⟨rfl, rfl⟩ := answers_ok hmounted
    by_cases hmem : name ∈ s₂.mounts
    · rw [decide_eq_true hmem] at hrest₂
      obtain ⟨hr, r', hunmount⟩ := runs_ignoreError_cases hrest₂
      obtain ⟨u, -, hexec⟩ := steady_attempt (.unmount name) id hunmount
      exact ⟨hr, changes_ok hexec⟩
    · rw [decide_eq_false hmem] at hrest₂
      obtain ⟨heq, rfl⟩ := runs_done hrest₂
      exact ⟨Prog.done.inj heq, hnothing hmem⟩
  · rw [decide_eq_false hpoint] at hrest₁
    obtain ⟨heq, rfl⟩ := runs_done hrest₁
    exact ⟨Prog.done.inj heq, hnothing fun hmem => hpoint (hmount hmem)⟩

theorem steady_removeMountPointIfAny {r : Except OverlayError Unit}
    (h : Prog.Runs (steadyExec env) (removeMountPointIfAny name).run s (.done r) s') :
    r = .ok () ∧ s' = { s with mountPoints := s.mountPoints.erase name } := by
  obtain ⟨found, s₁, hfound, hrest⟩ := steady_bind (.mountPointExists name) id h
  obtain ⟨rfl, rfl⟩ := answers_ok hfound
  by_cases hpoint : name ∈ s₁.mountPoints
  · rw [decide_eq_true hpoint] at hrest
    obtain ⟨u, hr, ⟨-, -, hexec⟩ | ⟨⟨e, he⟩, -⟩⟩ :=
      steady_attempt (.removeMountPoint name) id hrest
    · exact ⟨hr, hexec⟩
    · cases he
  · rw [decide_eq_false hpoint] at hrest
    obtain ⟨heq, rfl⟩ := runs_done hrest
    rw [Finset.erase_eq_of_notMem hpoint]
    exact ⟨Prog.done.inj heq, rfl⟩

theorem steady_removeCowIfAny {r : Except OverlayError Unit}
    (h : Prog.Runs (steadyExec env) (removeCowIfAny name).run s (.done r) s') :
    r = .ok () ∧ s' = { s with cows := s.cows.erase name } := by
  obtain ⟨found, s₁, hfound, hrest⟩ := steady_bind (.cowExists name) id h
  obtain ⟨rfl, rfl⟩ := answers_ok hfound
  by_cases hcow : name ∈ s₁.cows
  · rw [decide_eq_true hcow] at hrest
    obtain ⟨u, s₂, hentries, hdir⟩ := steady_bind (.removeCowEntries name) id hrest
    obtain ⟨u', hr, hexec⟩ := steady_attempt (.removeCowDir name) id hdir
    refine ⟨hr, ?_⟩
    rw [changes_ok hexec]
    rcases hentries with rfl | ⟨-, cow, -, rfl⟩
    · rfl
    · rw [OverlayState.setCow, FiniteMap.erase_insert]
  · rw [decide_eq_false hcow] at hrest
    obtain ⟨heq, rfl⟩ := runs_done hrest
    rw [FiniteMap.erase_of_not_mem hcow]
    exact ⟨Prog.done.inj heq, rfl⟩

/-- After the clean-up of a workspace that is not mounted nothing is left of it. -/
theorem steady_cleanupPartialWorkspace {r : Except OverlayError Unit} (hmount : name ∉ s.mounts)
    (h : Prog.Runs (steadyExec env) (cleanupPartialWorkspace name).run s (.done r) s') :
    s'.cows = s.cows.erase name ∧ s'.mounts = s.mounts.erase name ∧ s'.epochs = s.epochs ∧
      s'.mountPoints = s.mountPoints.erase name := by
  obtain ⟨s₁, rfl, hrest₁⟩ := runs_bind_of_eq (fun _ _ hrun =>
    steady_unmountOverlay (fun hmem => absurd hmem hmount) hrun) h
  obtain ⟨s₂, ⟨r₂, hpoint⟩, hrest₂⟩ := runs_bind_of_eq (fun _ _ hrun =>
    runs_ignoreError_cases hrun) hrest₁
  obtain ⟨-, rfl⟩ := steady_removeMountPointIfAny hpoint
  obtain ⟨-, r₃, hcow⟩ := runs_ignoreError_cases hrest₂
  obtain ⟨-, rfl⟩ := steady_removeCowIfAny hcow
  exact ⟨rfl, rfl, rfl, rfl⟩

/-- What a mount may change before it is there: the snapshot and the directory of the workspace. -/
structure Readied (env : OverlayEnv) (name : String) (epoch : GitOid) (s s' : OverlayState) :
    Prop where
  snapshot : ∃ dir, s'.epochs = s.epochs.insert epoch dir ∧ Holds env epoch dir ∧
    dir.refcount env = (s.snapshot epoch).refcount env
  others : ∀ other, other ≠ name → s'.cows.lookup other = s.cows.lookup other
  own : s'.cows.lookup name = s.cows.lookup name ∨ ∃ cow, s'.cows.lookup name = some cow ∧
    cow.upper = some ((s.cow name).upper.getD []) ∧ cow.epochFile = (s.cow name).epochFile
  mountPoints : s'.mountPoints = insert name s.mountPoints

theorem steady_mountOverlay {r : Except OverlayError Unit} (harchive : ArchiveExact env epoch)
    (hholds : ∀ dir, s.epochs.lookup epoch = some dir → Holds env epoch dir)
    (hmount : name ∉ s.mounts)
    (h : Prog.Runs (steadyExec env) (mountOverlay name epoch).run s (.done r) s') :
    Readied env name epoch s s' ∧ ((r = .ok () ∧ name ∈ s'.cows ∧
      s'.mounts = s.mounts.insert name epoch) ∨ ((∃ e, r = .error e) ∧ s'.mounts = s.mounts)) := by
  obtain ⟨mounted, s₁, hmounted, hrest₁⟩ := steady_bind (.isOverlayMounted name) id h
  obtain ⟨rfl, rfl⟩ := answers_ok hmounted
  rw [decide_eq_false hmount] at hrest₁
  obtain ⟨s₂, ⟨dir, rfl, hdir, hcount⟩, hrest₂⟩ := runs_bind_of_eq (fun _ _ hrun =>
    steady_ensureEpochSnapshot harchive hholds hrun) hrest₁
  obtain ⟨u₂, s₃, hpoint, hrest₃⟩ := steady_bind (.createMountPoint name) id hrest₂
  obtain rfl := changes_ok hpoint
  have hsnapshot : ∃ dir', s₁.epochs.insert epoch dir = s₁.epochs.insert epoch dir' ∧
      Holds env epoch dir' ∧ dir'.refcount env = (s₁.snapshot epoch).refcount env :=
    ⟨dir, rfl, hdir, hcount⟩
  rcases runs_bind_cases hrest₃ with ⟨u₃, s₄, hupper, hrest₄⟩ | ⟨e, hupper, rfl⟩
  · obtain rfl := changes_ok (runs_attempt_done.mp hupper).1
    obtain ⟨u₄, s₅, hwork, hrest₅⟩ := steady_bind (.createWork name) id hrest₄
    obtain rfl := changes_ok hwork
    have hready (mounts : FiniteMap String GitOid) : Readied env name epoch s₁
        { s₁ with
          epochs := s₁.epochs.insert epoch dir
          mountPoints := insert name s₁.mountPoints
          cows := s₁.cows.insert name
            { s₁.cow name with upper := some ((s₁.cow name).upper.getD []), work := true }
          mounts := mounts } := by
      refine ⟨hsnapshot, fun other hne => ?_, .inr ⟨_, Finmap.lookup_insert _, rfl, rfl⟩, rfl⟩
      exact Finmap.lookup_insert_of_ne _ hne
    rw [cow_setCow, setCow_setCow] at hrest₅
    obtain ⟨hexec, -⟩ := runs_attempt_done.mp hrest₅
    rcases hexec with ⟨rfl, -, hcow, -, rfl⟩ | ⟨⟨e, rfl⟩, rfl⟩
    · exact ⟨hready _, .inl ⟨rfl, hcow, rfl⟩⟩
    · exact ⟨hready _, .inr ⟨⟨e, rfl⟩, rfl⟩⟩
  · obtain ⟨hexec, -⟩ := runs_attempt_done.mp hupper
    rcases hexec with ⟨he, -⟩ | ⟨-, rfl⟩
    · cases he
    · exact ⟨⟨hsnapshot, fun _ _ => rfl, .inl rfl, rfl⟩, .inr ⟨⟨e, rfl⟩, rfl⟩⟩

end Mounts

/-! ### The invariant -/

namespace Sound

variable {env : OverlayEnv} {s s' : OverlayState} {name : String} {epoch : GitOid}

theorem mem_epochs (h : Sound env s) {cow : CowDir} (hcow : s.cows.lookup name = some cow)
    (hfile : cow.epochFile = some epoch) : epoch ∈ s.epochs := by
  obtain ⟨edits, epoch', -, hfile', -, hmem⟩ := h.cows name cow hcow
  rw [hfile] at hfile'
  exact Option.some.inj hfile' ▸ hmem

theorem mem_cows (h : Sound env s) (hmount : name ∈ s.mounts) : name ∈ s.cows := by
  obtain ⟨epoch, hepoch⟩ := Finmap.mem_iff.mp hmount
  obtain ⟨-, cow, hcow, -⟩ := h.mounts name epoch hepoch
  exact FiniteMap.mem_of_lookup hcow

theorem mem_mountPoints (h : Sound env s) (hmount : name ∈ s.mounts) : name ∈ s.mountPoints := by
  obtain ⟨epoch, hepoch⟩ := Finmap.mem_iff.mp hmount
  exact (h.mounts name epoch hepoch).1

theorem holds (h : Sound env s) :
    ∀ dir, s.epochs.lookup epoch = some dir → Holds env epoch dir :=
  fun dir hdir => (h.snapshots epoch dir hdir).1

/-- The count is right also for an epoch without a snapshot. -/
theorem refcount (h : Sound env s) :
    (s.snapshot epoch).refcount env = (s.recordedOn epoch).card := by
  by_cases hmem : epoch ∈ s.epochs
  · obtain ⟨dir, hdir⟩ := Finmap.mem_iff.mp hmem
    rw [snapshot_of_lookup hdir]
    exact (h.snapshots epoch dir hdir).2.2
  · have hnone : s.recordedOn epoch = ∅ := by
      refine Finset.eq_empty_of_forall_notMem fun name hname => hmem ?_
      obtain ⟨cow, hcow, -, hfile⟩ := mem_recordedOn.mp hname
      exact h.mem_epochs hcow hfile
    rw [snapshot_of_not_mem hmem, hnone]
    rfl

theorem recordedOn_congr (hcows : s'.cows = s.cows) : s'.recordedOn epoch = s.recordedOn epoch := by
  ext name
  rw [mem_recordedOn, mem_recordedOn, hcows]

/-- The directories of workspaces stay; a snapshot is filled, mounts may go. -/
theorem of_cows_eq (h : Sound env s) (harchive : ArchiveExact env epoch) (hcows : s'.cows = s.cows)
    (hmounts : ∀ name e, s'.mounts.lookup name = some e →
      s.mounts.lookup name = some e ∧ (name ∈ s.mountPoints → name ∈ s'.mountPoints))
    (hepochs : ∃ dir, s'.epochs = s.epochs.insert epoch dir ∧ Holds env epoch dir ∧
      dir.refcount env = (s.snapshot epoch).refcount env) : Sound env s' := by
  obtain ⟨dir, hepochs, hholds, hcount⟩ := hepochs
  constructor
  · intro name cow hcow
    rw [hcows] at hcow
    obtain ⟨edits, e, hupper, hfile, hedits, hmem⟩ := h.cows name cow hcow
    exact ⟨edits, e, hupper, hfile, hedits, hepochs ▸ Finmap.mem_insert.mpr (.inr hmem)⟩
  · intro e dir' hdir'
    rw [recordedOn_congr hcows]
    rw [hepochs, FiniteMap.lookup_insert] at hdir'
    split_ifs at hdir' with heq
    · obtain rfl := Option.some.inj hdir'
      subst heq
      exact ⟨hholds, harchive, hcount.trans h.refcount⟩
    · exact h.snapshots e dir' hdir'
  · intro name e hmount
    obtain ⟨hmount, hpoint⟩ := hmounts name e hmount
    obtain ⟨hmem, hcow⟩ := h.mounts name e hmount
    rw [hcows]
    exact ⟨hpoint hmem, hcow⟩

/-- The snapshot of an epoch that no workspace is on goes. -/
theorem of_erase_epoch (h : Sound env s) (hnone : s.recordedOn epoch = ∅) :
    Sound env { s with epochs := s.epochs.erase epoch } := by
  constructor
  · intro name cow hcow
    obtain ⟨edits, e, hupper, hfile, hedits, hmem⟩ := h.cows name cow hcow
    refine ⟨edits, e, hupper, hfile, hedits, Finmap.mem_erase.mpr ⟨?_, hmem⟩⟩
    rintro rfl
    have hmem' : name ∈ s.recordedOn e :=
      mem_recordedOn.mpr ⟨cow, hcow, by rw [hupper]; rfl, hfile⟩
    rw [hnone] at hmem'
    exact absurd hmem' (Finset.notMem_empty _)
  · intro e dir hdir
    have hlookup : (s.epochs.erase epoch).lookup e = some dir := hdir
    rw [FiniteMap.lookup_erase] at hlookup
    split_ifs at hlookup
    exact h.snapshots e dir hlookup
  · exact h.mounts

theorem of_mounts_erase (h : Sound env s) :
    Sound env { s with mounts := s.mounts.erase name } := by
  refine ⟨h.cows, h.snapshots, fun other e hmount => ?_⟩
  have hlookup : (s.mounts.erase name).lookup other = some e := hmount
  rw [FiniteMap.lookup_erase] at hlookup
  split_ifs at hlookup
  exact h.mounts other e hlookup

/-- A new workspace is counted and mounted. -/
theorem of_created (h : Sound env s) (hnew : name ∉ s.cows) (harchive : ArchiveExact env epoch)
    (hothers : ∀ other, other ≠ name → s'.cows.lookup other = s.cows.lookup other)
    (hown : ∃ cow, s'.cows.lookup name = some cow ∧ cow.upper = some [] ∧
      cow.epochFile = some epoch)
    (hepochs : ∃ dir, s'.epochs = s.epochs.insert epoch dir ∧ Holds env epoch dir ∧
      dir.refcount env = (s.recordedOn epoch).card + 1)
    (hmounts : s'.mounts = s.mounts.insert name epoch)
    (hpoints : s'.mountPoints = insert name s.mountPoints) : Sound env s' := by
  obtain ⟨own, hlookup, hupper, hfile⟩ := hown
  obtain ⟨dir, hepochs, hholds, hcount⟩ := hepochs
  have hrecorded (e : GitOid) (other : String) : other ∈ s'.recordedOn e ↔
      (other = name ∧ e = epoch) ∨ other ∈ s.recordedOn e := by
    rw [mem_recordedOn, mem_recordedOn]
    by_cases heq : other = name
    · subst heq
      rw [hlookup, Finmap.lookup_eq_none.mpr hnew]
      simp only [Option.some.injEq, exists_eq_left', hupper, hfile, Option.isSome_some, true_and,
        reduceCtorEq, false_and, exists_false, or_false]
      exact eq_comm
    · rw [hothers other heq]
      simp [heq]
  constructor
  · intro other cow hcow
    by_cases heq : other = name
    · subst heq
      rw [hlookup] at hcow
      obtain rfl := Option.some.inj hcow
      exact ⟨[], epoch, hupper, hfile, fun edit hedit => absurd hedit List.not_mem_nil,
        hepochs ▸ Finmap.mem_insert.mpr (.inl rfl)⟩
    · rw [hothers other heq] at hcow
      obtain ⟨edits, e, hupper', hfile', hedits, hmem⟩ := h.cows other cow hcow
      exact ⟨edits, e, hupper', hfile', hedits, hepochs ▸ Finmap.mem_insert.mpr (.inr hmem)⟩
  · intro e dir' hdir'
    rw [hepochs, FiniteMap.lookup_insert] at hdir'
    split_ifs at hdir' with heq
    · obtain rfl := Option.some.inj hdir'
      subst heq
      have hinsert : s'.recordedOn e = insert name (s.recordedOn e) := by
        ext other
        rw [hrecorded, Finset.mem_insert, and_iff_left rfl]
      have hnot : name ∉ s.recordedOn e := fun hmem => by
        obtain ⟨cow, hcow, -⟩ := mem_recordedOn.mp hmem
        exact hnew (FiniteMap.mem_of_lookup hcow)
      rw [hinsert, Finset.card_insert_of_notMem hnot]
      exact ⟨hholds, harchive, hcount⟩
    · have hsame : s'.recordedOn e = s.recordedOn e := by
        ext other
        rw [hrecorded, or_iff_right fun hboth => heq hboth.2]
      rw [hsame]
      exact h.snapshots e dir' hdir'
  · intro other e hmount
    rw [hmounts, FiniteMap.lookup_insert] at hmount
    rw [hpoints, Finset.mem_insert]
    split_ifs at hmount with heq
    · obtain rfl := Option.some.inj hmount
      subst heq
      exact ⟨.inl rfl, own, hlookup, hfile⟩
    · obtain ⟨hmem, cow, hcow, hfile'⟩ := h.mounts other e hmount
      refine ⟨.inr hmem, cow, ?_, hfile'⟩
      rw [hothers other heq, hcow]

end Sound

/-! ### Whole turns -/

section Operations

variable {env : OverlayEnv} {s s' : OverlayState} {name : String} {epoch : GitOid}

theorem steady_writeWorkspaceEpoch {r : Except OverlayError Unit}
    (h : Prog.Runs (steadyExec env) (writeWorkspaceEpoch name epoch).run s (.done r) s') :
    r = .ok () ∧ s' = s.setCow name { s.cow name with epochFile := some epoch } := by
  obtain ⟨u, s₁, htruncate, hrest⟩ := steady_bind (.truncateWorkspaceEpoch name) id h
  obtain rfl := changes_ok htruncate
  obtain ⟨u', hr, hwrite⟩ := steady_attempt (.writeWorkspaceEpoch name epoch) id hrest
  obtain rfl := changes_ok hwrite
  refine ⟨hr, ?_⟩
  rw [cow_setCow, setCow_setCow]

/-- The directories of a new workspace, with the snapshot of its epoch. -/
def opened (s : OverlayState) (name : String) (epoch : GitOid) (dir : SnapshotDir) :
    OverlayState :=
  (s.setCow name ⟨some [], true, some epoch⟩).setSnapshot epoch dir

/-- What a mount makes of the directories of a new workspace. -/
theorem readied_opened {dir : SnapshotDir} (hsound : Sound env s)
    (hcount : dir.refcount env = (s.snapshot epoch).refcount env)
    (h : Readied env name epoch (opened s name epoch dir) s') :
    (∀ other, other ≠ name → s'.cows.lookup other = s.cows.lookup other) ∧
      (∃ cow, s'.cows.lookup name = some cow ∧ cow.upper = some [] ∧
        cow.epochFile = some epoch) ∧
      ∃ dir', s'.epochs = s.epochs.insert epoch dir' ∧ Holds env epoch dir' ∧
        dir'.refcount env = (s.recordedOn epoch).card := by
  have hlookup : (opened s name epoch dir).cows.lookup name = some ⟨some [], true, some epoch⟩ :=
    Finmap.lookup_insert _
  refine ⟨fun other hne => ?_, ?_, ?_⟩
  · exact (h.others other hne).trans (Finmap.lookup_insert_of_ne _ hne)
  · rcases h.own with heq | ⟨cow, hcow, hupper, hfile⟩
    · exact ⟨_, heq.trans hlookup, rfl, rfl⟩
    · rw [cow_of_lookup hlookup] at hupper hfile
      exact ⟨cow, hcow, hupper, hfile⟩
  · obtain ⟨dir', hepochs, hdir', hcount'⟩ := h.snapshot
    rw [opened, snapshot_setSnapshot] at hcount'
    refine ⟨dir', hepochs.trans (Finmap.insert_insert _), hdir', ?_⟩
    rw [hcount', hcount]
    exact hsound.refcount

theorem steady_countWorkspace {r : Except OverlayError Unit}
    (h : Prog.Runs (steadyExec env)
      (onError (epochRefcountInc epoch) (cleanupPartialWorkspace name)).run s (.done r) s') :
    r = .ok () ∧ s' = s.setSnapshot epoch
      (recount (s.snapshot epoch) (((s.snapshot epoch).refcount env + 1) % 2 ^ 32)) := by
  rcases runs_onError_cases h with ⟨u, rfl, hinc⟩ | ⟨e, s₁, r', -, hinc, -⟩
  · exact ⟨rfl, (steady_epochRefcountInc hinc).2⟩
  · cases (steady_epochRefcountInc hinc).1

/-- The creation of a new workspace ends with the workspace or without a trace of it. -/
theorem sound_create_of_new {r : Except OverlayError GitOid} (hsound : Sound env s)
    (hnew : name ∉ s.cows) (harchive : ArchiveExact env epoch)
    (hbound : (s.recordedOn epoch).card + 1 < 2 ^ 32)
    (h : Prog.Runs (steadyExec env) (create name epoch).run s (.done r) s') :
    Sound env s' ∧ ((∃ e, r = .error e) → s'.cows = s.cows) := by
  have hmount : name ∉ s.mounts := fun hmem => hnew (hsound.mem_cows hmem)
  obtain ⟨mounted, s₀, hmounted, hrest₁⟩ := steady_bind (.isOverlayMounted name) id h
  obtain ⟨rfl, rfl⟩ := answers_ok hmounted
  rw [decide_eq_false hmount] at hrest₁
  rcases runs_bind_cases hrest₁ with ⟨u₁, s₁, hupper, hrest₂⟩ | ⟨e, hupper, rfl⟩
  · obtain rfl := changes_ok (runs_attempt_done.mp hupper).1
    obtain ⟨u₂, s₂, hwork, hrest₃⟩ := steady_bind (.createWork name) id hrest₂
    obtain rfl := changes_ok hwork
    obtain ⟨s₃, rfl, hrest₄⟩ := runs_bind_of_eq (fun _ _ hrun =>
      steady_writeWorkspaceEpoch hrun) hrest₃
    rw [cow_setCow, setCow_setCow, cow_setCow, setCow_setCow, cow_of_not_mem hnew] at hrest₄
    have hholds₀ : ∀ dir, (s₀.setCow name ⟨some [], true, some epoch⟩).epochs.lookup epoch =
        some dir → Holds env epoch dir := hsound.holds
    obtain ⟨s₄, ⟨dir, rfl, hdir, hcount⟩, hrest₅⟩ := runs_bind_of_eq (fun _ _ hrun =>
      steady_ensureEpochSnapshot harchive hholds₀ hrun) hrest₄
    -- The mount finds the snapshot that has just been ensured.
    have hholds : ∀ dir', (opened s₀ name epoch dir).epochs.lookup epoch = some dir' →
        Holds env epoch dir' := by
      intro dir' hdir'
      rw [opened, OverlayState.setSnapshot, Finmap.lookup_insert] at hdir'
      exact Option.some.inj hdir' ▸ hdir
    have hmount₀ : name ∉ (opened s₀ name epoch dir).mounts := hmount
    rcases runs_bind_cases hrest₅ with ⟨u₅, s₅, hmountRun, hrest₆⟩ | ⟨e, hmountRun, rfl⟩
    · rcases runs_onError_cases hmountRun with ⟨u, -, hmounted⟩ | ⟨e, s₆, r', heq, -, -⟩
      · obtain ⟨hreadied, ⟨-, -, hmounts⟩ | ⟨⟨e, he⟩, -⟩⟩ :=
          steady_mountOverlay harchive hholds hmount₀ hmounted
        · obtain ⟨hothers, hown, dir', hepochs, hdir', hcount'⟩ :=
            readied_opened hsound hcount hreadied
          obtain ⟨s₆, rfl, hrest₇⟩ := runs_bind_of_eq (fun _ _ hrun =>
            steady_countWorkspace hrun) hrest₆
          obtain ⟨heq, rfl⟩ := runs_done hrest₇
          obtain rfl := Prog.done.inj heq
          refine ⟨hsound.of_created hnew harchive hothers hown ?_ hmounts hreadied.mountPoints,
            fun ⟨e, he⟩ => by cases he⟩
          have hsnapshot : s₅.snapshot epoch = dir' := by
            rw [OverlayState.snapshot, hepochs, Finmap.lookup_insert, Option.getD_some]
          refine ⟨recount (s₅.snapshot epoch) (((s₅.snapshot epoch).refcount env + 1) % 2 ^ 32), ?_,
            holds_recount harchive (hsnapshot ▸ hdir') _, ?_⟩
          · rw [OverlayState.setSnapshot, hepochs, Finmap.insert_insert]
          · rw [refcount_recount, hsnapshot, hcount', Nat.mod_eq_of_lt hbound]
        · cases he
      · cases heq
    · rcases runs_onError_cases hmountRun with ⟨u, heq, -⟩ | ⟨e', s₆, r', -, hfailed, hcleanup⟩
      · cases heq
      · obtain ⟨hreadied, ⟨heq, -⟩ | ⟨-, hmounts⟩⟩ :=
          steady_mountOverlay harchive hholds hmount₀ hfailed
        · cases heq
        · obtain ⟨hothers, -, dir', hepochs, hdir', hcount'⟩ :=
            readied_opened hsound hcount hreadied
          have hnot : name ∉ s₆.mounts := hmounts.symm ▸ hmount
          obtain ⟨hcows, hmounts', hepochs', hpoints⟩ :=
            steady_cleanupPartialWorkspace hnot hcleanup
          have hsame : s'.cows = s₀.cows := by
            refine Finmap.ext_lookup fun other => ?_
            rw [hcows, FiniteMap.lookup_erase]
            split_ifs with heq
            · rw [heq, Finmap.lookup_eq_none.mpr hnew]
            · exact hothers other heq
          refine ⟨hsound.of_cows_eq harchive hsame (fun other e hother => ?_)
            ⟨dir', hepochs'.trans hepochs, hdir', hcount'.trans hsound.refcount.symm⟩,
            fun _ => hsame⟩
          rw [hmounts', FiniteMap.lookup_erase, hmounts] at hother
          split_ifs at hother with heq
          refine ⟨hother, fun hpoint => ?_⟩
          rw [hpoints, hreadied.mountPoints]
          exact Finset.mem_erase.mpr ⟨heq, Finset.mem_insert_of_mem hpoint⟩
  · rcases (runs_attempt_done.mp hupper).1 with ⟨he, -⟩ | ⟨-, rfl⟩
    · cases he
    · exact ⟨hsound, fun _ => rfl⟩

theorem sound_create {r : Except OverlayError GitOid} (hsound : Sound env s)
    (hready : Ready env s (.create name epoch))
    (h : Prog.Runs (steadyExec env) (create name epoch).run s (.done r) s') :
    Sound env s' ∧ ((∃ e, r = .error e) → s'.cows = s.cows) := by
  rcases hready with hmount | ⟨hnew, harchive, hbound⟩
  · obtain ⟨mounted, s₁, hmounted, hrest₁⟩ := steady_bind (.isOverlayMounted name) id h
    obtain ⟨rfl, rfl⟩ := answers_ok hmounted
    rw [decide_eq_true hmount] at hrest₁
    rcases runs_bind_cases hrest₁ with ⟨o, s₂, hread, hrest₂⟩ | ⟨e, hread, -⟩
    · obtain ⟨r₀, hexec, -⟩ := returns_asOption.mp hread
      obtain ⟨rfl, -⟩ := (runs_attempt_done.mp hexec).1
      have hdone : s' = s₂ := by
        cases o with
        | none => exact (runs_done hrest₂).2
        | some e => exact (runs_done hrest₂).2
      subst hdone
      exact ⟨hsound, fun _ => rfl⟩
    · exact absurd hread not_runs_asOption_error
  · exact sound_create_of_new hsound hnew harchive hbound h

/-- The last workspace of an epoch takes the snapshot with it. -/
theorem steady_releaseEpoch {r : Except OverlayError Unit}
    (h : Prog.Runs (steadyExec env) (releaseEpoch epoch).run s (.done r) s') :
    s' = if (s.snapshot epoch).refcount env - 1 = 0 then
        { s with epochs := s.epochs.erase epoch }
      else s.setSnapshot epoch
        (recount (s.snapshot epoch) ((s.snapshot epoch).refcount env - 1)) := by
  obtain ⟨s₁, rfl, hrest₁⟩ := runs_bind_of_eq (fun _ _ hrun => steady_epochRefcountDec hrun) h
  split_ifs at hrest₁ ⊢ with hzero
  · obtain ⟨count, s₂, hread, hrest₂⟩ := steady_bind (.readRefcount epoch) id hrest₁
    obtain ⟨rfl, rfl⟩ := answers_ok hread
    rw [snapshot_setSnapshot, refcount_recount] at hrest₂
    simp only [if_pos hzero] at hrest₂
    obtain ⟨found, s₃, hfound, hrest₃⟩ := steady_bind (.snapshotExists epoch) id hrest₂
    obtain ⟨rfl, rfl⟩ := answers_ok hfound
    rw [decide_eq_true (mem_setSnapshot _)] at hrest₃
    obtain ⟨-, rfl⟩ := steady_removeSnapshot hrest₃
    rw [OverlayState.setSnapshot, FiniteMap.erase_insert]
  · exact (runs_done hrest₁).2

/-- What is left after a workspace was destroyed. -/
theorem sound_destroy_of_mem {cow : CowDir} (hsound : Sound env s)
    (hcow : s.cows.lookup name = some cow) (hfile : cow.epochFile = some epoch)
    (hupper : cow.upper.isSome = true) {final : OverlayState}
    (hcows : final.cows = s.cows.erase name) (hmounts : final.mounts = s.mounts.erase name)
    (hpoints : final.mountPoints = s.mountPoints.erase name)
    (hepochs : ∃ dir, s.epochs.lookup epoch = some dir ∧ final.epochs =
      if dir.refcount env - 1 = 0 then s.epochs.erase epoch
      else s.epochs.insert epoch (recount dir (dir.refcount env - 1))) : Sound env final := by
  obtain ⟨dir, hdir, hepochs⟩ := hepochs
  obtain ⟨hholds, harchive, hcount⟩ := hsound.snapshots epoch dir hdir
  have hrecorded (e : GitOid) : final.recordedOn e = (s.recordedOn e).erase name := by
    ext other
    rw [Finset.mem_erase, mem_recordedOn, mem_recordedOn, hcows]
    by_cases heq : other = name
    · rw [heq, Finmap.lookup_erase]
      simp
    · rw [Finmap.lookup_erase_ne heq]
      simp [heq]
  have hmem : name ∈ s.recordedOn epoch := mem_recordedOn.mpr ⟨cow, hcow, hupper, hfile⟩
  have hcard : (final.recordedOn epoch).card = dir.refcount env - 1 := by
    rw [hrecorded, Finset.card_erase_of_mem hmem, hcount]
  have hlookup (other : String) (own : CowDir) (h : final.cows.lookup other = some own) :
      other ≠ name ∧ s.cows.lookup other = some own := by
    rw [hcows, FiniteMap.lookup_erase] at h
    split_ifs at h with heq
    exact ⟨heq, h⟩
  constructor
  · intro other own hown
    obtain ⟨hne, hown'⟩ := hlookup other own hown
    obtain ⟨edits, e, hupper', hfile', hedits, hmem'⟩ := hsound.cows other own hown'
    refine ⟨edits, e, hupper', hfile', hedits, ?_⟩
    rw [hepochs]
    split_ifs with hzero
    · refine Finmap.mem_erase.mpr ⟨?_, hmem'⟩
      rintro rfl
      have hother : other ∈ final.recordedOn e :=
        mem_recordedOn.mpr ⟨own, hown, by rw [hupper']; rfl, hfile'⟩
      rw [Finset.card_eq_zero.mp (hcard.trans hzero)] at hother
      exact absurd hother (Finset.notMem_empty _)
    · exact Finmap.mem_insert.mpr (.inr hmem')
  · intro e dir' hdir'
    have hother (hne : e ≠ epoch) (hold : s.epochs.lookup e = some dir') :
        Holds env e dir' ∧ ArchiveExact env e ∧
          dir'.refcount env = (final.recordedOn e).card := by
      have hnot : name ∉ s.recordedOn e := fun hmem => by
        obtain ⟨own, hown, -, hfile'⟩ := mem_recordedOn.mp hmem
        rw [hcow] at hown
        obtain rfl := Option.some.inj hown
        rw [hfile] at hfile'
        exact hne (Option.some.inj hfile').symm
      rw [hrecorded, Finset.erase_eq_of_notMem hnot]
      exact hsound.snapshots e dir' hold
    rw [hepochs] at hdir'
    split_ifs at hdir' with hzero
    · rw [FiniteMap.lookup_erase] at hdir'
      split_ifs at hdir' with heq
      exact hother heq hdir'
    · rw [FiniteMap.lookup_insert] at hdir'
      split_ifs at hdir' with heq
      · obtain rfl := Option.some.inj hdir'
        subst heq
        exact ⟨holds_recount harchive hholds _, harchive, by rw [refcount_recount, hcard]⟩
      · exact hother heq hdir'
  · intro other e hmount
    rw [hmounts, FiniteMap.lookup_erase] at hmount
    split_ifs at hmount with heq
    obtain ⟨hmem', own, hown, hfile'⟩ := hsound.mounts other e hmount
    rw [hpoints, hcows, Finmap.lookup_erase_ne heq]
    exact ⟨Finset.mem_erase.mpr ⟨heq, hmem'⟩, own, hown, hfile'⟩

/-- The directories and the mount of a workspace are gone. -/
def OverlayState.without (s : OverlayState) (name : String) : OverlayState :=
  { s with
    mounts := s.mounts.erase name
    mountPoints := s.mountPoints.erase name
    cows := s.cows.erase name }

theorem sound_without_of_not_mem (hsound : Sound env s) (hnot : name ∉ s.cows) :
    Sound env (s.without name) := by
  have hmount : name ∉ s.mounts := fun hmem => hnot (hsound.mem_cows hmem)
  have hcows : (s.without name).cows = s.cows := FiniteMap.erase_of_not_mem hnot
  have hmounts : (s.without name).mounts = s.mounts := FiniteMap.erase_of_not_mem hmount
  refine ⟨fun other cow hcow => ?_, fun e dir hdir => ?_, fun other e hother => ?_⟩
  · rw [hcows] at hcow
    exact hsound.cows other cow hcow
  · rw [Sound.recordedOn_congr hcows]
    exact hsound.snapshots e dir hdir
  · rw [hmounts] at hother
    obtain ⟨hpoint, hcow⟩ := hsound.mounts other e hother
    have hne : other ≠ name := fun heq => hmount (heq ▸ FiniteMap.mem_of_lookup hother)
    rw [hcows]
    exact ⟨Finset.mem_erase.mpr ⟨hne, hpoint⟩, hcow⟩

theorem sound_destroy {r : Except OverlayError Unit} (hsound : Sound env s)
    (h : Prog.Runs (steadyExec env) (destroy name).run s (.done r) s') : Sound env s' := by
  obtain ⟨s₁, rfl, hrest₁⟩ := runs_bind_of_eq (fun _ _ hrun =>
    steady_unmountOverlay hsound.mem_mountPoints hrun) h
  rcases runs_bind_cases hrest₁ with ⟨o, s₂, hread, hrest₂⟩ | ⟨e, hread, -⟩
  · obtain ⟨r₀, hexec, rfl⟩ := returns_asOption.mp hread
    obtain ⟨⟨rfl, hvalue⟩, hsteady⟩ := runs_attempt_done.mp hexec
    obtain ⟨s₃, rfl, hrest₃⟩ := runs_bind_of_eq (fun _ _ hrun =>
      steady_removeMountPointIfAny hrun) hrest₂
    obtain ⟨s₄, rfl, hrest₄⟩ := runs_bind_of_eq (fun _ _ hrun =>
      steady_removeCowIfAny hrun) hrest₃
    cases hlookup : s.cows.lookup name with
    | none =>
      have hnot : name ∉ s.cows := Finmap.lookup_eq_none.mp hlookup
      have hnone : r₀.toOption = none := by
        rcases hvalue with ⟨e, -, hfile⟩ | ⟨e, rfl⟩
        · have hfile' : (s.cow name).epochFile = some e := hfile
          rw [cow_of_not_mem hnot] at hfile'
          cases hfile'
        · rfl
      rw [hnone] at hrest₄
      obtain ⟨-, rfl⟩ := runs_done hrest₄
      exact sound_without_of_not_mem hsound hnot
    | some cow =>
      obtain ⟨edits, epoch, hupper, hfile, -, hmem⟩ := hsound.cows name cow hlookup
      have hown : (s.cow name).epochFile = some epoch := by rw [cow_of_lookup hlookup, hfile]
      obtain ⟨e, rfl⟩ : ∃ e, r₀ = .ok e := by
        rcases hsteady with hok | hmay
        · exact hok
        · have hmay' : (s.cow name).epochFile = none := hmay
          rw [hown] at hmay'
          cases hmay'
      obtain rfl : e = epoch := by
        rcases hvalue with ⟨e', heq, hfile'⟩ | ⟨e', he'⟩
        · have hfile'' : (s.cow name).epochFile = some e' := hfile'
          rw [hown] at hfile''
          rw [Except.ok.inj heq, Option.some.inj hfile'']
        · cases he'
      obtain ⟨dir, hdir⟩ := Finmap.mem_iff.mp hmem
      have hsnapshot : (s.without name).snapshot e = dir := snapshot_of_lookup hdir
      have hfinal := steady_releaseEpoch (s := s.without name) hrest₄
      rw [hsnapshot] at hfinal
      have hsome : cow.upper.isSome = true := by
        rw [hupper]
        rfl
      refine sound_destroy_of_mem hsound hlookup hfile hsome ?_ ?_ ?_ ⟨dir, hdir, ?_⟩
      · rw [hfinal]
        split_ifs <;> rfl
      · rw [hfinal]
        split_ifs <;> rfl
      · rw [hfinal]
        split_ifs <;> rfl
      · rw [hfinal]
        split_ifs <;> rfl
  · exact absurd hread not_runs_asOption_error

/-- The mount of a workspace that is there changes neither its upper layer nor its epoch. -/
theorem Sound.of_readied {cow : CowDir} {edits : List Edit} (h : Sound env s)
    (hcow : s.cows.lookup name = some cow) (hupper : cow.upper = some edits)
    (hfile : cow.epochFile = some epoch) (harchive : ArchiveExact env epoch)
    (hready : Readied env name epoch s s')
    (hmounts : s'.mounts = s.mounts ∨ s'.mounts = s.mounts.insert name epoch) : Sound env s' := by
  obtain ⟨own, hown, hupper', hfile'⟩ : ∃ own, s'.cows.lookup name = some own ∧
      own.upper = some edits ∧ own.epochFile = some epoch := by
    rcases hready.own with heq | ⟨own, hown, hupper', hfile'⟩
    · exact ⟨cow, heq.trans hcow, hupper, hfile⟩
    · rw [cow_of_lookup hcow, hupper, Option.getD_some] at hupper'
      rw [cow_of_lookup hcow, hfile] at hfile'
      exact ⟨own, hown, hupper', hfile'⟩
  obtain ⟨dir, hepochs, hholds, hcount⟩ := hready.snapshot
  have hrecorded (e : GitOid) : s'.recordedOn e = s.recordedOn e := by
    ext other
    rw [mem_recordedOn, mem_recordedOn]
    by_cases heq : other = name
    · subst heq
      rw [hown, hcow]
      simp [hupper, hupper', hfile, hfile']
    · rw [hready.others other heq]
  constructor
  · intro other cow' hcow'
    by_cases heq : other = name
    · subst heq
      rw [hown] at hcow'
      obtain rfl := Option.some.inj hcow'
      obtain ⟨edits', e, hupper'', hfile'', hedits, -⟩ := h.cows other cow hcow
      rw [hupper] at hupper''
      rw [hfile] at hfile''
      obtain rfl := Option.some.inj hupper''
      obtain rfl := Option.some.inj hfile''
      exact ⟨edits, epoch, hupper', hfile', hedits, hepochs ▸ Finmap.mem_insert.mpr (.inl rfl)⟩
    · rw [hready.others other heq] at hcow'
      obtain ⟨edits', e, hupper'', hfile'', hedits, hmem⟩ := h.cows other cow' hcow'
      exact ⟨edits', e, hupper'', hfile'', hedits, hepochs ▸ Finmap.mem_insert.mpr (.inr hmem)⟩
  · intro e dir' hdir'
    rw [hrecorded]
    rw [hepochs, FiniteMap.lookup_insert] at hdir'
    split_ifs at hdir' with heq
    · obtain rfl := Option.some.inj hdir'
      subst heq
      exact ⟨hholds, harchive, hcount.trans h.refcount⟩
    · exact h.snapshots e dir' hdir'
  · intro other e hmount
    rw [hready.mountPoints, Finset.mem_insert]
    have hold (hold : s.mounts.lookup other = some e) : (other = name ∨ other ∈ s.mountPoints) ∧
        ∃ cow, s'.cows.lookup other = some cow ∧ cow.epochFile = some e := by
      obtain ⟨hpoint, cow', hcow', hfile''⟩ := h.mounts other e hold
      refine ⟨.inr hpoint, ?_⟩
      by_cases heq : other = name
      · subst heq
        rw [hcow] at hcow'
        obtain rfl := Option.some.inj hcow'
        exact ⟨own, hown, hfile'.trans (hfile.symm.trans hfile'')⟩
      · exact ⟨cow', (hready.others other heq).trans hcow', hfile''⟩
    rcases hmounts with heq | heq
    · rw [heq] at hmount
      exact hold hmount
    · rw [heq, FiniteMap.lookup_insert] at hmount
      split_ifs at hmount with hname
      · obtain rfl := Option.some.inj hmount
        exact ⟨.inl hname, own, hname ▸ hown, hfile'⟩
      · exact hold hmount

theorem sound_status {r : Except OverlayError Unit} (hsound : Sound env s)
    (h : Prog.Runs (steadyExec env) (status name).run s (.done r) s') : Sound env s' := by
  obtain ⟨found, s₁, hfound, hrest₁⟩ := steady_bind (.upperExists name) id h
  obtain ⟨rfl, rfl⟩ := answers_ok hfound
  cases hupper : (s₁.cow name).upper with
  | none =>
    rw [hupper] at hrest₁
    obtain ⟨-, rfl⟩ := runs_done hrest₁
    exact hsound
  | some edits =>
    rw [hupper] at hrest₁
    obtain ⟨cow, hcow⟩ : ∃ cow, s₁.cows.lookup name = some cow := by
      rw [OverlayState.cow] at hupper
      cases hlookup : s₁.cows.lookup name with
      | none =>
        rw [hlookup] at hupper
        cases hupper
      | some cow => exact ⟨cow, rfl⟩
    obtain ⟨edits', epoch, hupper', hfile, -, hmem⟩ := hsound.cows name cow hcow
    have hop : ¬ (OverlayOp.readWorkspaceEpoch name).MayFail s₁ := by
      intro hmay
      have hnone : (s₁.cow name).epochFile = none := hmay
      rw [cow_of_lookup hcow, hfile] at hnone
      cases hnone
    obtain ⟨e, s₂, hread, hrest₂⟩ := steady_bind (.readWorkspaceEpoch name) hop hrest₁
    obtain ⟨rfl, he⟩ := reads_ok hread
    rw [cow_of_lookup hcow, hfile] at he
    obtain rfl := Option.some.inj he
    obtain ⟨mounted, s₃, hmounted, hrest₃⟩ := steady_bind (.isOverlayMounted name) id hrest₂
    obtain ⟨rfl, rfl⟩ := answers_ok hmounted
    by_cases hmount : name ∈ s₃.mounts
    · rw [decide_eq_true hmount] at hrest₃
      obtain ⟨-, rfl⟩ := runs_done hrest₃
      exact hsound
    · rw [decide_eq_false hmount] at hrest₃
      obtain ⟨dir, hdir⟩ := Finmap.mem_iff.mp hmem
      obtain ⟨-, harchive, -⟩ := hsound.snapshots epoch dir hdir
      obtain ⟨hready, hends⟩ := steady_mountOverlay harchive hsound.holds hmount hrest₃
      refine hsound.of_readied hcow hupper' hfile harchive hready ?_
      rcases hends with ⟨-, -, hmounts⟩ | ⟨-, hmounts⟩
      · exact .inr hmounts
      · exact .inl hmounts

theorem sound_removeUnreferenced {referenced : Finset GitOid} {epochs : List GitOid}
    {r : Except OverlayError Unit} (hsound : Sound env s)
    (hnone : ∀ e, e ∉ referenced → s.recordedOn e = ∅)
    (h : Prog.Runs (steadyExec env) (removeUnreferenced referenced epochs).run s (.done r) s') :
    Sound env s' := by
  induction epochs generalizing s with
  | nil =>
    obtain ⟨-, rfl⟩ := runs_done h
    exact hsound
  | cons epoch epochs ih =>
    rw [removeUnreferenced] at h
    split_ifs at h with hmem
    · exact ih hsound hnone h
    · obtain ⟨s₁, rfl, hrest⟩ := runs_bind_of_eq (fun _ _ hrun => steady_removeSnapshot hrun) h
      exact ih (hsound.of_erase_epoch (hnone epoch hmem)) hnone hrest

theorem sound_gc {r : Except OverlayError Unit} (hsound : Sound env s) (hready : Ready env s .gc)
    (h : Prog.Runs (steadyExec env) gcUnreferencedEpochs.run s (.done r) s') : Sound env s' := by
  have hnone (e : GitOid) (he : e ∉ s.referenced) : s.recordedOn e = ∅ := by
    refine Finset.eq_empty_of_forall_notMem fun name hname => he ?_
    obtain ⟨cow, hcow, -, hfile⟩ := mem_recordedOn.mp hname
    exact hready name cow e hcow hfile
  rcases runs_bind_cases h with ⟨referenced, s₁, hlist, hrest₁⟩ | ⟨e, hlist, -⟩
  · obtain ⟨rfl, rfl⟩ := reads_ok (runs_attempt_done.mp hlist).1
    rcases runs_bind_cases hrest₁ with ⟨epochs, s₂, hsnapshots, hrest₂⟩ | ⟨e, hsnapshots, -⟩
    · obtain ⟨rfl, -⟩ := reads_ok (runs_attempt_done.mp hsnapshots).1
      exact sound_removeUnreferenced hsound hnone hrest₂
    · obtain ⟨⟨rfl, -⟩, -⟩ := runs_attempt_done.mp hsnapshots
      exact hsound
  · obtain ⟨⟨rfl, -⟩, -⟩ := runs_attempt_done.mp hlist
    exact hsound

/-- An edit is made through the mount, which is over the recorded epoch. -/
theorem sound_edit (hsound : Sound env s) (path : Path) : Sound env (s.edit name path) := by
  rw [OverlayState.edit]
  split
  · next epoch edits hmount hupper =>
    obtain ⟨hpoint, cow, hcow, hfile⟩ := hsound.mounts name epoch hmount
    rw [cow_of_lookup hcow] at hupper ⊢
    obtain ⟨edits', epoch', hupper', hfile', hedits, hmem⟩ := hsound.cows name cow hcow
    rw [hupper] at hupper'
    rw [hfile] at hfile'
    obtain rfl := Option.some.inj hupper'
    obtain rfl := Option.some.inj hfile'
    have hlookup (other : String) (own : CowDir) : (s.setCow name
        { cow with upper := some (edits ++ [⟨epoch, path⟩]) }).cows.lookup other = some own ↔
          (other = name ∧ own = { cow with upper := some (edits ++ [⟨epoch, path⟩]) }) ∨
            (other ≠ name ∧ s.cows.lookup other = some own) := by
      rw [OverlayState.setCow, FiniteMap.lookup_insert]
      by_cases heq : other = name
      · simp [heq, eq_comm]
      · simp [heq]
    have hrecorded (e : GitOid) : (s.setCow name
        { cow with upper := some (edits ++ [⟨epoch, path⟩]) }).recordedOn e = s.recordedOn e := by
      ext other
      rw [mem_recordedOn, mem_recordedOn]
      by_cases heq : other = name
      · subst heq
        rw [hcow, OverlayState.setCow, Finmap.lookup_insert]
        simp [hupper]
      · rw [OverlayState.setCow, Finmap.lookup_insert_of_ne _ heq]
    refine ⟨fun other own hown => ?_, fun e dir hdir => ?_, fun other e hother => ?_⟩
    · rcases (hlookup other own).mp hown with ⟨rfl, rfl⟩ | ⟨-, hown'⟩
      · refine ⟨_, epoch, rfl, hfile, fun edit hedit => ?_, hmem⟩
        rcases List.mem_append.mp hedit with hold | hnew
        · exact hedits edit hold
        · rw [List.mem_singleton.mp hnew]
      · exact hsound.cows other own hown'
    · rw [hrecorded]
      exact hsound.snapshots e dir hdir
    · obtain ⟨hpoint', own, hown, hfile''⟩ := hsound.mounts other e hother
      refine ⟨hpoint', ?_⟩
      by_cases heq : other = name
      · subst heq
        rw [hcow] at hown
        obtain rfl := Option.some.inj hown
        exact ⟨_, (hlookup other _).mpr (.inl ⟨rfl, rfl⟩), hfile''⟩
      · exact ⟨own, (hlookup other own).mpr (.inr ⟨heq, hown⟩), hfile''⟩
  · exact hsound

/-- A whole turn keeps the invariant. -/
theorem sound_turn {task : OverlayTask} {r : Except OverlayError Unit} (hsound : Sound env s)
    (hready : Ready env s task)
    (h : Prog.Runs (steadyExec env) task.program.run s (.done r) s') : Sound env s' := by
  cases task with
  | create name epoch =>
    rcases runs_bind_cases h with ⟨oid, s₁, hcreate, hrest⟩ | ⟨e, hcreate, -⟩
    · obtain ⟨-, rfl⟩ := runs_done hrest
      exact (sound_create hsound hready hcreate).1
    · exact (sound_create hsound hready hcreate).1
  | destroy name => exact sound_destroy hsound h
  | status name => exact sound_status hsound h
  | gc => exact sound_gc hsound hready h
  | edit name path =>
    obtain ⟨-, rfl⟩ := (runs_attempt_done.mp h).1
    exact sound_edit hsound path
  | loseMount name =>
    obtain ⟨-, rfl⟩ := (runs_attempt_done.mp h).1
    exact hsound.of_mounts_erase
  | setReferenced epochs =>
    obtain ⟨-, rfl⟩ := (runs_attempt_done.mp h).1
    exact ⟨hsound.cows, hsound.snapshots, hsound.mounts⟩

end Operations

/-! ### Operations that take turns -/

section Turns

variable {ι : Type} [DecidableEq ι]

/-- A repository without overlay workspaces. -/
def initialState (referenced : Finset GitOid) : OverlayState := ⟨∅, ∅, ∅, ∅, referenced⟩

/-- The processes take turns: each one that is ready runs to its end, and no call fails but those
that may. -/
inductive Turns (env : OverlayEnv) (tasks : ι → OverlayTask) (referenced : Finset GitOid) :
    Pool OverlayOp (fun op => Except OverlayError op.Ret) (fun _ : ι => Except OverlayError Unit)
      OverlayState → Prop
  | start : Turns env tasks referenced (pool tasks (initialState referenced))
  | turn {reached : Pool OverlayOp (fun op => Except OverlayError op.Ret)
      (fun _ : ι => Except OverlayError Unit) OverlayState} {i : ι} {r : Except OverlayError Unit}
      {s : OverlayState} (h : Turns env tasks referenced reached)
      (hready : Ready env reached.state (tasks i))
      (hrun : Prog.Runs (steadyExec env) (reached.progs i) reached.state (.done r) s) :
      Turns env tasks referenced (reached.advance i (.done r) s)

variable {env : OverlayEnv} {tasks : ι → OverlayTask} {referenced : Finset GitOid}
  {reached : Pool OverlayOp (fun op => Except OverlayError op.Ret)
    (fun _ : ι => Except OverlayError Unit) OverlayState}

theorem runs_of_steady {α : Type}
    {p q : Prog OverlayOp (fun op => Except OverlayError op.Ret) α} {s s' : OverlayState}
    (h : Prog.Runs (steadyExec env) p s q s') : Prog.Runs (OverlayOp.exec env) p s q s' := by
  induction h with
  | refl p s => exact .refl p s
  | step hexec _ ih => exact .step hexec.1 ih

theorem sound_initialState : Sound env (initialState referenced) := by
  constructor
  · intro name cow hcow
    cases hcow
  · intro epoch dir hdir
    cases hdir
  · intro name epoch hmount
    cases hmount

/-- Between turns a process has not begun or has ended. -/
theorem Turns.sound (h : Turns env tasks referenced reached) : Sound env reached.state ∧
    ∀ i, reached.progs i = (tasks i).program.run ∨ ∃ r, reached.progs i = .done r := by
  induction h with
  | start => exact ⟨sound_initialState, fun i => .inl rfl⟩
  | @turn reached i r s _ hready hrun ih =>
    obtain ⟨hsound, hprogs⟩ := ih
    constructor
    · rcases hprogs i with hprog | ⟨r', hprog⟩
      · rw [hprog] at hrun
        exact sound_turn hsound hready hrun
      · rw [hprog] at hrun
        obtain ⟨-, rfl⟩ := runs_done hrun
        exact hsound
    · intro j
      by_cases hj : j = i
      · subst hj
        exact .inr ⟨r, Pool.advance_self ..⟩
      · rw [Pool.advance_of_ne _ hj]
        exact hprogs j

/-- If the processes take turns, all workspaces are alive, and a creation that fails removes no
upper layer. -/
theorem alive_of_turns (h : Turns env tasks referenced reached) : Alive env reached.state ∧
    ∀ name epoch e s, Ready env reached.state (.create name epoch) →
      Prog.Runs (steadyExec env) (create name epoch).run reached.state (.done (.error e)) s →
        ∀ other edits, (reached.state.cow other).upper = some edits →
          (s.cow other).upper = some edits := by
  have hsound := h.sound.1
  refine ⟨alive_of_sound hsound, fun name epoch e s hready hrun other edits hupper => ?_⟩
  have hcows := (sound_create hsound hready hrun).2 ⟨e, rfl⟩
  rw [OverlayState.cow, hcows]
  exact hupper

end Turns

/-! ### A creation and a collection -/

section Sample

def sampleMembers : List (Path × Option MaterializedEntry) :=
  [(samplePath, some ⟨.blob, sampleBlob 1⟩)]

/-- An epoch of one file. -/
def sampleEnv : OverlayEnv where
  treeOf _ := oneFileTree 1
  archive _ := some sampleMembers
  parseCount _ := 0

def sampleEpoch : GitOid := sampleBlob 7

theorem archiveExact_sample : ArchiveExact sampleEnv sampleEpoch := by
  refine ⟨_, rfl, by decide +kernel, by decide +kernel, fun p entry => ?_⟩
  have htree : (sampleEnv.treeOf sampleEpoch).lookup p =
      if p = samplePath then some ⟨.blob, sampleBlob 1⟩ else none := by
    have hinsert := FiniteMap.lookup_insert (∅ : GitTree) samplePath p ⟨.blob, sampleBlob 1⟩
    rwa [Finmap.lookup_empty] at hinsert
  rw [sampleMembers, List.mem_singleton, htree]
  by_cases hp : p = samplePath
  · simp [hp, eq_comm]
  · simp [hp]

theorem steady_ok {env : OverlayEnv} {op : OverlayOp} {s s' : OverlayState} {a : op.Ret}
    (h : op.exec env s (.ok a) s') : steadyExec env op s (.ok a) s' :=
  ⟨h, .inl ⟨a, rfl⟩⟩

/-- A call that takes the sample from a state to another one. -/
abbrev Takes (op : OverlayOp) (a : op.Ret) (s s' : OverlayState) : Prop :=
  steadyExec sampleEnv op s (.ok a) s'

theorem runs_sample : ∃ s, Prog.Runs (steadyExec sampleEnv)
    (OverlayTask.create "alice" sampleEpoch).program.run (initialState ∅) (.done (.ok ())) s ∧
      (s.cow "alice").upper = some [] ∧ s.referenced = ∅ ∧ s.epochs.keys = {sampleEpoch} := by
  have hrun : Prog.Runs (steadyExec sampleEnv)
      (OverlayTask.create "alice" sampleEpoch).program.run (initialState ∅) (.done (.ok ())) _ :=
    .step (steady_ok ⟨rfl, congrArg Except.ok (by decide +kernel)⟩ :
      Takes (.isOverlayMounted "alice") false _ _) <|
    .step (steady_ok (.inl ⟨rfl, rfl⟩) : Takes (.createUpper "alice") () _ _) <|
    .step (steady_ok (.inl ⟨rfl, rfl⟩) : Takes (.createWork "alice") () _ _) <|
    .step (steady_ok (.inl ⟨rfl, rfl⟩) : Takes (.truncateWorkspaceEpoch "alice") () _ _) <|
    .step (steady_ok (.inl ⟨rfl, rfl⟩) : Takes (.writeWorkspaceEpoch "alice" sampleEpoch) () _ _) <|
    .step (steady_ok ⟨rfl, congrArg Except.ok (by decide +kernel)⟩ :
      Takes (.hasContent sampleEpoch) false _ _) <|
    .step (steady_ok (.inl ⟨rfl, rfl⟩) : Takes (.createSnapshotDir sampleEpoch) () _ _) <|
    .step (steady_ok ⟨rfl, .inl ⟨_, rfl, rfl⟩⟩ :
      Takes (.archive sampleEpoch) sampleMembers _ _) <|
    .step (steady_ok (.inl ⟨rfl, by decide +kernel, rfl⟩) :
      Takes (.extract sampleEpoch samplePath (some ⟨.blob, sampleBlob 1⟩)) () _ _) <|
    .step (steady_ok ⟨rfl, congrArg Except.ok (by decide +kernel)⟩ :
      Takes (.isOverlayMounted "alice") false _ _) <|
    .step (steady_ok ⟨rfl, congrArg Except.ok (by decide +kernel)⟩ :
      Takes (.hasContent sampleEpoch) true _ _) <|
    .step (steady_ok (.inl ⟨rfl, rfl⟩) : Takes (.createMountPoint "alice") () _ _) <|
    .step (steady_ok (.inl ⟨rfl, rfl⟩) : Takes (.createUpper "alice") () _ _) <|
    .step (steady_ok (.inl ⟨rfl, rfl⟩) : Takes (.createWork "alice") () _ _) <|
    .step (steady_ok (.inl ⟨rfl, by decide +kernel, by decide +kernel, by decide +kernel, rfl⟩) :
      Takes (.mount "alice" sampleEpoch) () _ _) <|
    .step (steady_ok ⟨rfl, congrArg Except.ok (by decide +kernel)⟩ :
      Takes (.readRefcount sampleEpoch) 0 _ _) <|
    .step (steady_ok (.inl ⟨rfl, by decide +kernel, rfl⟩) :
      Takes (.truncateRefcount sampleEpoch) () _ _) <|
    .step (steady_ok (.inl ⟨rfl, by decide +kernel, rfl⟩) :
      Takes (.writeRefcount sampleEpoch 1) () _ _) <|
    .refl _ _
  exact ⟨_, hrun, by decide +kernel, rfl, by decide +kernel⟩

/-- One process creates a workspace. -/
theorem alive_of_turns_create : ∃ reached,
    Turns sampleEnv (fun _ : Unit => .create "alice" sampleEpoch) ∅ reached ∧
      (reached.state.cow "alice").upper = some [] ∧ Alive sampleEnv reached.state := by
  obtain ⟨s, hrun, hupper, -, -⟩ := runs_sample
  have hready : Ready sampleEnv (initialState ∅) (.create "alice" sampleEpoch) :=
    .inr ⟨by decide +kernel, archiveExact_sample, by decide +kernel⟩
  have hturns : Turns sampleEnv (fun _ : Unit => .create "alice" sampleEpoch) ∅ _ :=
    .turn .start (i := ()) hready hrun
  exact ⟨_, hturns, hupper, (alive_of_turns hturns).1⟩

def createThenGc : Bool → OverlayTask
  | false => .create "alice" sampleEpoch
  | true => .gc

/-- The epoch of the workspace is neither current nor the one of a git worktree, so that the
collection removes its snapshot. -/
theorem not_alive_of_gc : ∃ events final,
    Run (OverlayOp.exec sampleEnv) (pool createThenGc (initialState ∅)) events final ∧
      (∀ i, final.progs i = .done (.ok ())) ∧ ¬ Alive sampleEnv final.state := by
  obtain ⟨s, hcreate, hupper, hreferenced, hkeys⟩ := runs_sample
  have hstart : Run (OverlayOp.exec sampleEnv) (pool createThenGc (initialState ∅)) []
      (pool createThenGc (initialState ∅)) := .nil
  obtain ⟨events, hrun⟩ := hstart.runs (i := false) (runs_of_steady hcreate)
  have hgc : Prog.Runs (OverlayOp.exec sampleEnv) gcUnreferencedEpochs.run s (.done (.ok ()))
      { s with epochs := s.epochs.erase sampleEpoch } := by
    have hlist : OverlayOp.exec sampleEnv .listReferenced s (.ok ∅) s :=
      ⟨rfl, .inl ⟨_, rfl, hreferenced.symm⟩⟩
    have hsnapshots : OverlayOp.exec sampleEnv .listSnapshots s (.ok [sampleEpoch]) s :=
      ⟨rfl, .inl ⟨_, rfl, hkeys.symm⟩⟩
    have hentries : OverlayOp.exec sampleEnv (.removeSnapshotEntries sampleEpoch) s (.ok ()) s :=
      .inl rfl
    have hdir : OverlayOp.exec sampleEnv (.removeSnapshotDir sampleEpoch) s (.ok ())
        { s with epochs := s.epochs.erase sampleEpoch } := .inl ⟨rfl, rfl⟩
    exact .step hlist <| .step hsnapshots <| .step hentries <| .step hdir <| .refl _ _
  obtain ⟨more, hrun'⟩ := hrun.runs (i := true) hgc
  refine ⟨_, _, hrun', fun i => ?_, fun halive => ?_⟩
  · cases i <;> rfl
  · obtain ⟨epoch, -, -, dir, hdir, -⟩ := halive "alice" [] hupper
    have hmem : epoch ∈ s.epochs.erase sampleEpoch := FiniteMap.mem_of_lookup hdir
    rw [Finmap.mem_erase, ← Finmap.mem_keys, hkeys, Finset.mem_singleton] at hmem
    exact hmem.1 hmem.2

end Sample

end Maw.OverlayBackend
