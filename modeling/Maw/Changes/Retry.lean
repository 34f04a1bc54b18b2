import Maw.Changes.Failures
import Maw.Changes.Serializable

/-!
# Closing a change again

Whether a change can be closed depends on its record, on its branch, on the directories of its
workspaces, and on what the calls outside the store answer. A close that has failed leaves all that
a later one needs, unless it had already deleted the branch.

## Main definitions

* `CanClose` — with these answers, a close may succeed.
* `Closable` — what it takes.

## Main results

* `canClose_iff` — a close may succeed if and only if the change is closable.
* `failed_commands_leave_registry` — commands that fail leave the store as it was, or so that they
  can be repeated.
* `failed_commands_leave_traces` — a creation that leaves entries without a record, and a close
  that cannot be repeated.
-/

open Interleaved

namespace Maw.Changes

variable {ι : Type} [DecidableEq ι]

/-! ### Closes that may succeed -/

/-- The outside calls have these answers. -/
def Answers (f : (call : OutsideCall) → call.Answer) :
    (op : ι × ChangesAction) → Except ChangesError op.2.Ret → Prop
  | (_, .outside call), r => r = .ok (f call)
  | _, _ => True

def answeringExec (f : (call : OutsideCall) → call.Answer) (op : ι × ChangesAction)
    (w : ChangesWorld ι) (r : Except ChangesError op.2.Ret) (w' : ChangesWorld ι) : Prop :=
  ChangesAction.exec op w r w' ∧ Answers f op r

/-- With these answers, a close may succeed. -/
def CanClose (f : (call : OutsideCall) → call.Answer) (i : ι) (args : CloseArgs)
    (w : ChangesWorld ι) : Prop :=
  ∃ w', Returns (answeringExec f) (closeChange i args) w () w'

/-- The pull request of the change is merged. -/
def PrMerged (f : (call : OutsideCall) → call.Answer) (record : ChangeRecord) : Prop :=
  ∃ pr, record.pr = some pr ∧
    (eqIgnoreAsciiCase pr.state "merged" ∨ (f (.ghPrView pr.number)).mergedAt.isSome)

/-- The branch of the change can be deleted. -/
def BranchDeletable (f : (call : OutsideCall) → call.Answer) (branch : String) (force : Bool)
    (w : ChangesWorld ι) : Prop :=
  branch ≠ f .configBranch ∧
    ∃ oid, w.branches.lookup branch = some oid ∧ (force ∨ f (.isMergedIntoHead oid) = true)

/-- What it takes to close a change. -/
structure Closable (f : (call : OutsideCall) → call.Answer) (args : CloseArgs)
    (w : ChangesWorld ι) (read : ChangeRecord) : Prop where
  free : w.holder = none
  record : w.registry.active.lookup args.changeId = some read
  resolved : args.force ∨ ∀ name ∈ read.workspaces.linked, name ∉ w.workspaces
  merged : args.force ∨ PrMerged f read
  branch : args.deleteBranch → BranchDeletable f read.git.changeBranch args.force w

section Returns

variable {f : (call : OutsideCall) → call.Answer} {i : ι} {w w' : ChangesWorld ι}

theorem returns_outside_iff {call : OutsideCall} {v : call.Answer} :
    Returns (answeringExec f) (outside i call) w v w' ↔ v = f call ∧ w' = w := by
  refine returns_attempt.trans ⟨?_, ?_⟩
  · rintro ⟨⟨rfl, -⟩, hr⟩
    exact ⟨Except.ok.inj hr, rfl⟩
  · rintro ⟨rfl, rfl⟩
    exact ⟨⟨rfl, nofun⟩, rfl⟩

theorem returns_readRecord_iff {id : String} {record : ChangeRecord} :
    Returns (answeringExec f) (invoke i (.readActiveRecord id) >>= expectRecord id) w record w' ↔
      w.registry.active.lookup id = some record ∧ w' = w := by
  constructor
  · intro h
    obtain ⟨o, w₁, hread, hexpect⟩ := returns_bind.mp h
    obtain ⟨⟨-, hr, rfl⟩ | ⟨hr, -⟩, -⟩ := returns_attempt.mp hread
    · cases o with
      | none => exact absurd hexpect not_returns_throw
      | some record' =>
        obtain ⟨rfl, rfl⟩ := returns_pure.mp hexpect
        exact ⟨(Except.ok.inj hr).symm, rfl⟩
    · cases hr
  · rintro ⟨hrecord, rfl⟩
    have hid := ActiveRecords.validChangeId_of_lookup hrecord
    rw [ActiveRecords.changeId_eq hrecord] at hid
    refine returns_bind.mpr ⟨some record, w', returns_attempt.mpr ?_, returns_pure.mpr ⟨rfl, rfl⟩⟩
    exact ⟨.inl ⟨hid, by rw [hrecord], rfl⟩, trivial⟩

theorem returns_existingWorkspaces_iff {names existing : List String} :
    Returns (answeringExec f) (existingWorkspaces i names) w existing w' ↔
      existing = names.filter (· ∈ w.workspaces) ∧ w' = w := by
  induction names generalizing existing with
  | nil => exact returns_pure
  | cons name names ih =>
    constructor
    · intro h
      obtain ⟨found, w₁, hexists, hrest⟩ := returns_bind.mp h
      obtain ⟨⟨hr, rfl⟩, -⟩ := returns_attempt.mp hexists
      obtain ⟨others, w₂, hothers, hpure⟩ := returns_bind.mp hrest
      obtain ⟨rfl, rfl⟩ := returns_pure.mp hpure
      obtain ⟨rfl, rfl⟩ := ih.mp hothers
      obtain rfl := Except.ok.inj hr
      exact ⟨by simp [List.filter_cons], rfl⟩
    · rintro ⟨rfl, rfl⟩
      refine returns_bind.mpr ⟨decide (name ∈ w'.workspaces), w', returns_attempt.mpr ?_, ?_⟩
      · exact ⟨⟨rfl, rfl⟩, trivial⟩
      · refine returns_bind.mpr ⟨_, w', ih.mpr ⟨rfl, rfl⟩, returns_pure.mpr ⟨?_, rfl⟩⟩
        simp [List.filter_cons]

theorem returns_ensureLinkedWorkspacesResolved_iff {read : ChangeRecord} {force : Bool} :
    Returns (answeringExec f) (ensureLinkedWorkspacesResolved i read force) w () w' ↔
      (force ∨ ∀ name ∈ read.workspaces.linked, name ∉ w.workspaces) ∧ w' = w := by
  have hnone : read.workspaces.linked.filter (· ∈ w.workspaces) = [] ↔
      ∀ name ∈ read.workspaces.linked, name ∉ w.workspaces := by
    simp [List.filter_eq_nil_iff]
  constructor
  · intro h
    obtain ⟨existing, w₁, hexisting, hrest⟩ := returns_bind.mp h
    obtain ⟨rfl, rfl⟩ := returns_existingWorkspaces_iff.mp hexisting
    split_ifs at hrest with hc
    · obtain ⟨-, rfl⟩ := returns_pure.mp hrest
      rw [hnone] at hc
      exact ⟨hc.symm, rfl⟩
    · exact absurd hrest not_returns_throw
  · rintro ⟨hc, rfl⟩
    refine returns_bind.mpr ⟨_, w', returns_existingWorkspaces_iff.mpr ⟨rfl, rfl⟩, ?_⟩
    rw [if_pos (by rw [hnone]; exact hc.symm)]
    exact returns_pure.mpr ⟨rfl, rfl⟩

/-- A check of the pull request that passes. -/
theorem returns_ensurePrMerged {read checked : ChangeRecord} {force : Bool}
    (h : Returns (answeringExec f) (ensurePrMergedIfRequired i read force) w checked w') :
    (force ∨ PrMerged f read) ∧ ClosedFrom read checked ∧ w' = w := by
  unfold ensurePrMergedIfRequired at h
  split_ifs at h with hforce
  · obtain ⟨rfl, rfl⟩ := returns_pure.mp h
    exact ⟨.inl hforce, .refl _, rfl⟩
  · cases hpr : read.pr with
    | none =>
      rw [hpr] at h
      exact absurd h not_returns_throw
    | some pr =>
      rw [hpr] at h
      dsimp only at h
      split_ifs at h with hmerged
      · obtain ⟨rfl, rfl⟩ := returns_pure.mp h
        exact ⟨.inr ⟨pr, hpr, .inl hmerged⟩, .refl _, rfl⟩
      · obtain ⟨view, w₁, hview, hmark⟩ := returns_bind.mp h
        obtain ⟨rfl, rfl⟩ := returns_outside_iff.mp hview
        unfold markMerged at hmark
        split_ifs at hmark with hat
        · obtain ⟨rfl, rfl⟩ := returns_pure.mp hmark
          exact ⟨.inr ⟨pr, hpr, .inr hat⟩, ⟨read.state, _, rfl, .inr ⟨pr, hpr, rfl⟩⟩, rfl⟩
        · exact absurd hmark not_returns_throw

theorem exists_returns_ensurePrMerged {read : ChangeRecord} {force : Bool}
    (h : force ∨ PrMerged f read) :
    ∃ checked, Returns (answeringExec f) (ensurePrMergedIfRequired i read force) w checked w := by
  unfold ensurePrMergedIfRequired
  split_ifs with hforce
  · exact ⟨read, returns_pure.mpr ⟨rfl, rfl⟩⟩
  · obtain ⟨pr, hpr, hmerged⟩ := h.resolve_left hforce
    rw [hpr]
    dsimp only
    split_ifs with hstate
    · exact ⟨read, returns_pure.mpr ⟨rfl, rfl⟩⟩
    · refine ⟨{ read with pr := some { pr with state := "merged" } }, returns_bind.mpr
        ⟨f (.ghPrView pr.number), w, returns_outside_iff.mpr ⟨rfl, rfl⟩, ?_⟩⟩
      rw [markMerged, if_pos (hmerged.resolve_left hstate)]
      exact returns_pure.mpr ⟨rfl, rfl⟩

theorem returns_ensureMergedIntoHead_iff {branch oid : String} {force : Bool} :
    Returns (answeringExec f) (ensureMergedIntoHead i branch oid force) w () w' ↔
      (force ∨ f (.isMergedIntoHead oid) = true) ∧ w' = w := by
  unfold ensureMergedIntoHead
  cases force with
  | true => simp
  | false =>
    constructor
    · intro h
      obtain ⟨merged, w₁, hmerged, hrest⟩ := returns_bind.mp h
      obtain ⟨rfl, rfl⟩ := returns_outside_iff.mp hmerged
      split_ifs at hrest with hc
      · obtain ⟨-, rfl⟩ := returns_pure.mp hrest
        exact ⟨.inr hc, rfl⟩
      · exact absurd hrest not_returns_throw
    · rintro ⟨hc, rfl⟩
      refine returns_bind.mpr ⟨_, w', returns_outside_iff.mpr ⟨rfl, rfl⟩, ?_⟩
      rw [if_pos (hc.resolve_left nofun)]
      exact returns_pure.mpr ⟨rfl, rfl⟩

theorem returns_readBranch_iff {branch oid : String} :
    Returns (answeringExec f) (invoke i (.readRef branch) >>= expectBranch branch) w oid w' ↔
      w.branches.lookup branch = some oid ∧ w' = w := by
  constructor
  · intro h
    obtain ⟨o, w₁, hread, hexpect⟩ := returns_bind.mp h
    obtain ⟨⟨hr, rfl⟩ | ⟨hr, -⟩, -⟩ := returns_attempt.mp hread
    · cases o with
      | none => exact absurd hexpect not_returns_throw
      | some oid' =>
        obtain ⟨rfl, rfl⟩ := returns_pure.mp hexpect
        exact ⟨(Except.ok.inj hr).symm, rfl⟩
    · cases hr
  · rintro ⟨hbranch, rfl⟩
    refine returns_bind.mpr ⟨some oid, w', returns_attempt.mpr ?_, returns_pure.mpr ⟨rfl, rfl⟩⟩
    exact ⟨.inl ⟨by rw [hbranch], rfl⟩, trivial⟩

/-- A branch that was deleted was deletable. -/
theorem returns_deleteChangeBranch {branch : String} {deleteBranch deleteRemote force : Bool}
    {deleted : Bool × Bool}
    (h : Returns (answeringExec f)
      (deleteChangeBranchIfRequested i branch deleteBranch deleteRemote force) w deleted w') :
    (deleteBranch → BranchDeletable f branch force w) ∧ w'.holder = w.holder := by
  unfold deleteChangeBranchIfRequested at h
  split_ifs at h with hrequested
  · obtain ⟨-, rfl⟩ := returns_pure.mp h
    refine ⟨fun hdelete => ?_, rfl⟩
    rw [hdelete] at hrequested
    cases hrequested
  · obtain ⟨trunk, w₁, htrunk, hrest⟩ := returns_bind.mp h
    obtain ⟨rfl, rfl⟩ := returns_outside_iff.mp htrunk
    by_cases hbranch : branch = f .configBranch
    · rw [if_pos hbranch] at hrest
      exact absurd hrest not_returns_throw
    rw [if_neg hbranch] at hrest
    obtain ⟨oid, w₂, hoid, hrest₁⟩ := returns_bind.mp hrest
    obtain ⟨hlookup, rfl⟩ := returns_readBranch_iff.mp hoid
    obtain ⟨_, w₃, hcheck, hrest₂⟩ := returns_bind.mp hrest₁
    obtain ⟨hmerged, rfl⟩ := returns_ensureMergedIntoHead_iff.mp hcheck
    refine ⟨fun _ => ⟨hbranch, oid, hlookup, hmerged⟩, ?_⟩
    obtain ⟨_, w₄, hdelete, hremote⟩ := returns_bind.mp hrest₂
    obtain ⟨⟨-, rfl⟩ | ⟨hr, -⟩, -⟩ := returns_attempt.mp hdelete
    · unfold deleteRemoteBranch at hremote
      split_ifs at hremote
      · obtain ⟨-, rfl⟩ := returns_pure.mp hremote
        rfl
      · obtain ⟨v, w₅, hpush, hpure⟩ := returns_bind.mp hremote
        obtain ⟨-, rfl⟩ := returns_outside_iff.mp hpush
        obtain ⟨-, rfl⟩ := returns_pure.mp hpure
        rfl
    · cases hr

theorem exists_returns_deleteChangeBranch {branch : String} {deleteBranch force : Bool}
    (deleteRemote : Bool) (h : deleteBranch → BranchDeletable f branch force w) :
    ∃ deleted branches, Returns (answeringExec f)
      (deleteChangeBranchIfRequested i branch deleteBranch deleteRemote force) w deleted
        { w with branches } := by
  unfold deleteChangeBranchIfRequested
  cases deleteBranch with
  | false => exact ⟨_, w.branches, returns_pure.mpr ⟨rfl, rfl⟩⟩
  | true =>
    obtain ⟨hbranch, oid, hlookup, hmerged⟩ := h rfl
    let w₁ : ChangesWorld ι := { w with branches := w.branches.erase branch }
    have hremote : ∃ deleted, Returns (answeringExec f)
        (deleteRemoteBranch i branch deleteRemote) w₁ deleted w₁ := by
      cases deleteRemote with
      | false => exact ⟨_, returns_pure.mpr ⟨rfl, rfl⟩⟩
      | true =>
        exact ⟨_, returns_bind.mpr ⟨_, w₁, returns_outside_iff.mpr ⟨rfl, rfl⟩,
          returns_pure.mpr ⟨rfl, rfl⟩⟩⟩
    obtain ⟨deleted, hremote⟩ := hremote
    refine ⟨deleted, w₁.branches, returns_bind.mpr
      ⟨_, w, returns_outside_iff.mpr ⟨rfl, rfl⟩, ?_⟩⟩
    rw [if_neg hbranch]
    refine returns_bind.mpr ⟨oid, w, returns_readBranch_iff.mpr ⟨hlookup, rfl⟩, ?_⟩
    refine returns_bind.mpr ⟨(), w, returns_ensureMergedIntoHead_iff.mpr ⟨hmerged, rfl⟩, ?_⟩
    exact returns_bind.mpr ⟨(), w₁, returns_attempt.mpr ⟨.inl ⟨rfl, rfl⟩, trivial⟩, hremote⟩

/-- With the lock free, a change that is active can be archived. -/
theorem exists_returns_closeUpdate (read record : ChangeRecord) (force localDeleted : Bool)
    (hfree : w.holder = none) (hid : validChangeId record.changeId) :
    ∃ w', Returns (answeringExec f) (withStoreLock i (.close read record force localDeleted)) w ()
      w' := by
  let held : Held ι := ⟨i, .close read record force localDeleted, w.registry.index⟩
  let w₁ : ChangesWorld ι := { w with
    holder := some held
    registry := { w.registry with active := w.registry.active.put record hid } }
  let w₂ : ChangesWorld ι := { w₁ with registry := { w₁.registry with
    index := w.registry.index.clearMappingsForChange record.changeId } }
  let w₃ : ChangesWorld ι := { w₂ with
    registry := w₂.registry.archiveActiveRecord record.changeId
    log := held.note w.log }
  have hlookup : w₂.registry.active.lookup record.changeId = some record :=
    (ActiveRecords.lookup_put _ record hid _).trans (if_pos rfl)
  refine ⟨{ w₃ with holder := none }, returns_bind.mpr ⟨(), { w with holder := some held },
    returns_attempt.mpr ⟨.inl ⟨hfree, rfl, rfl⟩, trivial⟩, ?_⟩⟩
  refine returns_bind.mpr ⟨(), w₃, returns_onError.mpr ?_,
    returns_attempt.mpr ⟨⟨held, rfl, rfl, rfl, rfl⟩, trivial⟩⟩
  refine returns_bind.mpr ⟨(), w₁, returns_attempt.mpr
    ⟨⟨held, rfl, rfl, .inl ⟨hid, rfl, rfl⟩⟩, trivial⟩, ?_⟩
  refine returns_bind.mpr ⟨w.registry.index, w₁, returns_attempt.mpr
    ⟨.inl ⟨rfl, rfl⟩, trivial⟩, ?_⟩
  refine returns_bind.mpr ⟨(), w₂, returns_attempt.mpr
    ⟨⟨held, rfl, rfl, .inl ⟨rfl, rfl⟩⟩, trivial⟩, ?_⟩
  exact returns_bind.mpr ⟨true, w₃, returns_attempt.mpr
    ⟨⟨held, rfl, rfl, .inl ⟨congrArg Option.isSome hlookup, rfl, rfl⟩⟩, trivial⟩,
    returns_pure.mpr ⟨rfl, rfl⟩⟩

/-- A close may succeed if and only if the change is closable. -/
theorem canClose_iff {args : CloseArgs} : CanClose f i args w ↔ ∃ read, Closable f args w read := by
  constructor
  · rintro ⟨w', h⟩
    obtain ⟨read, w₁, hread, h₁⟩ := returns_bind.mp h
    obtain ⟨hrecord, rfl⟩ := returns_readRecord_iff.mp hread
    obtain ⟨_, w₂, hlinked, h₂⟩ := returns_bind.mp h₁
    obtain ⟨hresolved, rfl⟩ := returns_ensureLinkedWorkspacesResolved_iff.mp hlinked
    obtain ⟨checked, w₃, hchecked, h₃⟩ := returns_bind.mp h₂
    obtain ⟨hmerged, hclosed, rfl⟩ := returns_ensurePrMerged hchecked
    obtain ⟨deleted, w₄, hdeleted, h₄⟩ := returns_bind.mp h₃
    obtain ⟨hbranch, hholder⟩ := returns_deleteChangeBranch hdeleted
    obtain ⟨stamp, w₅, hstamp, h₅⟩ := returns_bind.mp h₄
    obtain ⟨-, rfl⟩ := returns_outside_iff.mp hstamp
    obtain ⟨_, w₆, hlock, -⟩ := returns_bind.mp h₅
    obtain ⟨⟨hfree, -, -⟩ | ⟨hr, -⟩, -⟩ := returns_attempt.mp hlock
    · obtain ⟨state, pr, rfl, -⟩ := hclosed
      exact ⟨read, hholder.symm.trans hfree, hrecord, hresolved, hmerged, hbranch⟩
    · cases hr
  · rintro ⟨read, hfree, hrecord, hresolved, hmerged, hbranch⟩
    obtain ⟨checked, hchecked⟩ := exists_returns_ensurePrMerged (i := i) (w := w) hmerged
    obtain ⟨-, ⟨state, pr, rfl, -⟩, -⟩ := returns_ensurePrMerged hchecked
    obtain ⟨deleted, branches, hdeleted⟩ :=
      exists_returns_deleteChangeBranch (i := i) args.remote hbranch
    have hid := ActiveRecords.validChangeId_of_lookup hrecord
    let w₁ : ChangesWorld ι := { w with branches }
    let checked : ChangeRecord := { read with state, pr }
    let record : ChangeRecord :=
      { checked with state := if isPrMerged checked then .merged else .closed }
    obtain ⟨w', hclose⟩ := exists_returns_closeUpdate (f := f) (i := i) (w := w₁) read record
      args.force deleted.1 hfree hid
    refine ⟨w', returns_bind.mpr ⟨read, w, returns_readRecord_iff.mpr ⟨hrecord, rfl⟩, ?_⟩⟩
    refine returns_bind.mpr ⟨(), w,
      returns_ensureLinkedWorkspacesResolved_iff.mpr ⟨hresolved, rfl⟩, ?_⟩
    refine returns_bind.mpr ⟨checked, w, hchecked, ?_⟩
    refine returns_bind.mpr ⟨deleted, w₁, hdeleted, ?_⟩
    exact returns_bind.mpr ⟨_, w₁, returns_outside_iff.mpr ⟨rfl, rfl⟩, hclose⟩

end Returns

/-! ### Commands that fail -/

section Failing

variable {f : (call : OutsideCall) → call.Answer} {w : ChangesWorld ι}

omit [DecidableEq ι] in
/-- A change that was left active can be closed as before. -/
theorem Closable.of_halfClosed {args : CloseArgs} {read : ChangeRecord} {reg : Registry}
    (h : Closable f args w read) (hhalf : HalfClosed read w.registry reg) :
    ∃ record, Closable f args { w with registry := reg } record := by
  obtain ⟨record, hrecord, state, pr, rfl, hpr⟩ := hhalf.record
  rw [ActiveRecords.changeId_eq h.record] at hrecord
  refine ⟨_, h.free, hrecord, h.resolved, ?_, h.branch⟩
  refine h.merged.imp_right ?_
  rintro ⟨p, hp, hmerged⟩
  rcases hpr with rfl | ⟨p', hp', rfl⟩
  · exact ⟨p, hp, hmerged⟩
  · have hmerged' : eqIgnoreAsciiCase "merged" "merged" = true := by decide +kernel
    exact ⟨_, rfl, .inl hmerged'⟩

theorem CanClose.of_halfClosed {args : CloseArgs} {read : ChangeRecord} {reg : Registry} {i : ι}
    (j : ι) (h : CanClose f i args w) (hread : w.registry.active.lookup args.changeId = some read)
    (hhalf : HalfClosed read w.registry reg) : CanClose f j args { w with registry := reg } := by
  obtain ⟨read', hclosable⟩ := canClose_iff.mp h
  obtain rfl := Option.some.inj (hclosable.record.symm.trans hread)
  exact canClose_iff.mpr (hclosable.of_halfClosed hhalf)

/-- With the same answers, and whatever happens elsewhere, the close may succeed if it could
before. -/
def Repeatable (args : CloseArgs) (w w' : ChangesWorld ι) : Prop :=
  ∀ (f : (call : OutsideCall) → call.Answer) (i j : ι) branches workspaces,
    CanClose f i args { w with branches, workspaces } →
      CanClose f j args { w' with branches, workspaces }

/-- A creation that fails leaves the store and the branches as they were. A close that fails
leaves the branches, and can be repeated. The entries of the index name active records. -/
theorem failed_commands_leave_registry (hash : String → String) {w : ChangesWorld ι}
    (h : Reachable hash w) :
    (∀ i args e w',
      Prog.Runs completeExec (createChange i hash args).run w (.done (.error e)) w' →
        w'.registry = w.registry ∧ w'.branches = w.branches) ∧
    (∀ i args e w',
      Prog.Runs completeExec (closeChange i args).run w (.done (.error e)) w' →
        w'.branches = w.branches ∧ w'.workspaces = w.workspaces ∧ Repeatable args w w') ∧
    IndexSound w.registry := by
  have hsound := reachable_indexSound h
  refine ⟨fun i args e w' hrun => ?_, fun i args e w' hrun => ?_, hsound⟩
  · have hend := alone_createChange (i := i)
      (F := fun w' => w'.registry = w.registry ∧ w'.branches = w.branches) hash args hsound
      fun _ _ => ⟨rfl, rfl⟩
    exact hend.runs rfl hrun
  · have hend := alone_closeChange (i := i) (F := fun w' =>
        w'.branches = w.branches ∧ w'.workspaces = w.workspaces ∧ Repeatable args w w') args
      ⟨rfl, rfl, fun f i j branches workspaces hcan => ?_⟩ fun read reg hread hhalf =>
      ⟨rfl, rfl, fun f i j branches workspaces hcan => hcan.of_halfClosed j hread hhalf⟩
    · exact hend.runs rfl hrun
    · exact canClose_iff.mpr (canClose_iff.mp hcan)

end Failing

/-! ### A creation that stops halfway -/

section Stopped

def sampleCreateArgs : CreateArgs := ⟨"x", "main", some "ch-1", none, none, none⟩

/-- A store without changes. -/
def emptyWorld : ChangesWorld (Fin 2) := ⟨.empty, ∅, ∅, none, []⟩

/-- The branch of the change was created. -/
def branchWorld : ChangesWorld (Fin 2) :=
  { emptyWorld with branches := (∅ : FiniteMap String String).insert "feat/ch-1-x" "c0" }

variable {E : (op : Fin 2 × ChangesAction) → ChangesWorld (Fin 2) →
    Except ChangesError op.2.Ret → ChangesWorld (Fin 2) → Prop}

/-- A program that fails stops the ones after it. -/
theorem runs_bind_error {α β : Type} {p : ChangesProg (Fin 2) α} {f : α → ChangesProg (Fin 2) β}
    {w w' : ChangesWorld (Fin 2)} {e : ChangesError}
    (h : Prog.Runs E p.run w (.done (.error e)) w') :
    Prog.Runs E (p >>= f).run w (.done (.error e)) w' :=
  Prog.Runs.bind_left h (ExceptT.bindCont f)

/-- A creation comes to register its change. -/
theorem runs_createChange (hE : AllowsPlain E) :
    Prog.Runs E (createChange 0 id sampleCreateArgs).run emptyWorld
      (registerChange 0 sampleRecord).run branchWorld := by
  have hchoose : Returns E (chooseChangeId 0 id sampleCreateArgs) emptyWorld "ch-1" emptyWorld := by
    have hvalid : validChangeId "ch-1" = true := by decide +kernel
    rw [chooseChangeId]
    simp only [sampleCreateArgs, hvalid, if_true]
    refine returns_bind.mpr ⟨none, emptyWorld, ?_, returns_pure.mpr ⟨rfl, rfl⟩⟩
    exact returns_invoke (a := .readActiveRecord "ch-1") hE trivial (.inl ⟨hvalid, rfl, rfl⟩)
  have hbranch : "feat/" ++ "ch-1" ++ "-" ++ slugifyTitle "x" = "feat/ch-1-x" := by
    decide +kernel
  have habsent : Returns E (ensureBranchAbsent 0 "feat/ch-1-x") emptyWorld () emptyWorld := by
    refine returns_bind.mpr ⟨none, emptyWorld, ?_, returns_pure.mpr ⟨rfl, rfl⟩⟩
    exact returns_invoke (a := .readRef "feat/ch-1-x") hE trivial (.inl ⟨rfl, rfl⟩)
  have hbase : Returns E (inferBaseBranch 0 "main") branchWorld "main" branchWorld := by
    have hslash : splitOnce '/' "main".toList = none := by decide +kernel
    rw [inferBaseBranch, hslash]
    exact returns_pure.mpr ⟨rfl, rfl⟩
  have hrecord : newRecord sampleCreateArgs "ch-1" "c0" "main" "t" = sampleRecord := by
    decide +kernel
  refine (returns_outside hE 0 (.resolveCreateSource "main") ⟨"main", false⟩).bind_runs ?_
  refine (returns_outside hE 0 (.gitRevParse "main") "c0").bind_runs ?_
  refine hchoose.bind_runs ?_
  dsimp only [sampleCreateArgs]
  rw [hbranch]
  refine habsent.bind_runs ?_
  refine (returns_invoke (a := .createBranch "feat/ch-1-x" "c0") hE trivial
    (.inl ⟨rfl, rfl, rfl⟩)).bind_runs ?_
  refine hbase.bind_runs ?_
  refine (returns_outside hE 0 .nowTimestamp "t").bind_runs ?_
  rw [← hrecord]
  exact .refl _ _

/-- The index after a creation. -/
def sampleIndex : ChangeIndex :=
  ((⟨∅, ∅⟩ : ChangeIndex).setBranchMapping "feat/ch-1-x" "ch-1").setWorkspaceMapping "ch-1" "ch-1"

/-- The index was written, and the record was not. -/
def indexWorld : ChangesWorld (Fin 2) :=
  { branchWorld with registry := { Registry.empty with index := sampleIndex } }

/-- An update whose program fails gives the lock back. -/
theorem runs_withStoreLock_error {update : StoreUpdate} {w : ChangesWorld (Fin 2)}
    (w₁ w' : ChangesWorld (Fin 2)) {e : ChangesError} {i : Fin 2}
    (hlock : E (i, .lock update) w (.ok ()) w₁)
    (hrun : Prog.Runs E (update.run i).run w₁ (.done (.error e)) w')
    (hunlock : E (i, .unlock) w' (.ok ()) { w' with holder := none }) :
    Prog.Runs E (withStoreLock i update).run w (.done (.error e)) { w' with holder := none } := by
  refine attempt_bind_runs hlock (runs_bind_error ?_)
  exact runs_bind_done.mpr ⟨.error e, w', hrun, runs_bind_done.mpr
    ⟨.ok (), _, runs_attempt_done.mpr hunlock, .refl _ _⟩⟩

/-- The index of the change is written, and its record is not. -/
theorem runs_failed_create : Prog.Runs ChangesAction.exec (createChange 0 id sampleCreateArgs).run
    emptyWorld (.done (.error .call)) indexWorld := by
  have hE : AllowsPlain ChangesAction.exec := fun _ _ _ _ _ _ h => h
  refine (runs_createChange hE).trans ?_
  let held : Held (Fin 2) := ⟨0, .create sampleRecord, branchWorld.registry.index⟩
  let w₁ : ChangesWorld (Fin 2) := { branchWorld with holder := some held }
  let w₂ : ChangesWorld (Fin 2) := { indexWorld with holder := some held }
  refine runs_bind_error (runs_withStoreLock_error w₁ w₂ (.inl ⟨rfl, rfl, rfl⟩) ?_
    ⟨held, rfl, rfl, rfl, rfl⟩)
  refine attempt_bind_runs (.inl ⟨rfl, rfl⟩) ?_
  refine attempt_bind_runs ⟨held, rfl, rfl, .inl ⟨rfl, rfl⟩⟩ ?_
  exact runs_attempt_done.mpr ⟨held, rfl, rfl, .inr ⟨rfl, rfl⟩⟩

/-- A change whose branch is gone. -/
def branchlessWorld : ChangesWorld (Fin 2) := ⟨sampleRegistry, ∅, ∅, none, []⟩

/-- A change with its branch. -/
def activeWorld : ChangesWorld (Fin 2) := { branchlessWorld with branches := sampleBranches }

def sampleDeleteArgs : CloseArgs := ⟨"ch-1", true, true, true⟩

/-- The local branch is deleted, and the remote one is not. -/
theorem runs_failed_close : Prog.Runs ChangesAction.exec (closeChange 0 sampleDeleteArgs).run
    activeWorld (.done (.error .call)) branchlessWorld := by
  have hE : AllowsPlain ChangesAction.exec := fun _ _ _ _ _ _ h => h
  have hresolved : Returns ChangesAction.exec
      (ensureLinkedWorkspacesResolved 0 sampleRecord true) activeWorld () activeWorld := by
    refine returns_bind.mpr ⟨[], activeWorld, ?_, returns_pure.mpr ⟨rfl, rfl⟩⟩
    refine returns_bind.mpr ⟨false, activeWorld, ?_, ?_⟩
    · exact returns_invoke (a := .workspaceExists "ch-1") hE trivial ⟨rfl, rfl⟩
    · exact returns_bind.mpr ⟨[], _, returns_pure.mpr ⟨rfl, rfl⟩, returns_pure.mpr ⟨rfl, rfl⟩⟩
  have hbranch : sampleBranches.lookup "feat/ch-1-x" = some "c1" := by decide +kernel
  have herase : sampleBranches.erase "feat/ch-1-x" = ∅ := by decide +kernel
  refine (returns_readSample hE 0 lookup_sampleRegistry).bind_runs ?_
  refine hresolved.bind_runs ?_
  have hmerged : Returns ChangesAction.exec (ensurePrMergedIfRequired 0 sampleRecord true)
      activeWorld sampleRecord activeWorld := returns_pure.mpr ⟨rfl, rfl⟩
  refine hmerged.bind_runs (runs_bind_error ?_)
  refine (returns_outside hE 0 .configBranch "main").bind_runs ?_
  rw [if_neg (by decide +kernel)]
  have hread : Returns ChangesAction.exec
      (invoke 0 (.readRef "feat/ch-1-x") >>= expectBranch "feat/ch-1-x") activeWorld "c1"
        activeWorld := by
    refine returns_bind.mpr ⟨some "c1", _, ?_, returns_pure.mpr ⟨rfl, rfl⟩⟩
    exact returns_invoke (a := .readRef "feat/ch-1-x") hE trivial
      (.inl ⟨by rw [← hbranch]; rfl, rfl⟩)
  refine hread.bind_runs ?_
  have hhead : Returns ChangesAction.exec (ensureMergedIntoHead 0 "feat/ch-1-x" "c1" true)
      activeWorld () activeWorld := returns_pure.mpr ⟨rfl, rfl⟩
  refine hhead.bind_runs ?_
  have hdeleted : Returns ChangesAction.exec (invoke 0 (.deleteRef "feat/ch-1-x" false)) activeWorld
      () branchlessWorld := by
    refine returns_invoke (a := .deleteRef "feat/ch-1-x" false) hE trivial (.inl ⟨rfl, ?_⟩)
    rw [branchlessWorld, ← herase]
    rfl
  refine hdeleted.bind_runs (runs_bind_error ?_)
  refine runs_attempt_done.mpr ⟨rfl, ?_⟩
  rintro e ⟨⟩
  exact ⟨rfl, nofun⟩

/-- The record of a change cannot be written: its branch and its entries stay. The remote branch
of a change cannot be deleted: the close can no longer succeed, with any answers. -/
theorem failed_commands_leave_traces :
    (Prog.Runs ChangesAction.exec (createChange 0 id sampleCreateArgs).run emptyWorld
        (.done (.error .call)) indexWorld ∧
      emptyWorld.branches.lookup "feat/ch-1-x" = none ∧
      indexWorld.branches.lookup "feat/ch-1-x" = some "c0" ∧
      ¬ IndexSound indexWorld.registry) ∧
    (Prog.Runs ChangesAction.exec (closeChange 0 sampleDeleteArgs).run activeWorld
        (.done (.error .call)) branchlessWorld ∧
      (∀ f, f .configBranch = "main" → CanClose f (0 : Fin 2) sampleDeleteArgs activeWorld) ∧
      ∀ f, ¬ CanClose f (0 : Fin 2) sampleDeleteArgs branchlessWorld) := by
  refine ⟨⟨runs_failed_create, rfl, by decide +kernel, fun hsound => ?_⟩, runs_failed_close,
    fun f hf => ?_, fun f hcan => ?_⟩
  · obtain ⟨record, hrecord, -⟩ := hsound.branch "feat/ch-1-x" "ch-1" (by decide +kernel)
    cases hrecord
  · refine canClose_iff.mpr ⟨sampleRecord, rfl, lookup_sampleRegistry, .inl rfl, .inl rfl,
      fun _ => ⟨?_, "c1", by decide +kernel, .inl rfl⟩⟩
    rw [hf]
    decide +kernel
  · obtain ⟨read, hclosable⟩ := canClose_iff.mp hcan
    obtain ⟨-, oid, hoid, -⟩ := hclosable.branch rfl
    cases hoid

theorem completes_of_ok {op : Fin 2 × ChangesAction} {w : ChangesWorld (Fin 2)} {v : op.2.Ret}
    (hop : ∀ id, op.2 ≠ .lock (.rollback id)) : Completes op w (.ok v) :=
  ⟨fun _ _ _ _ => nofun, fun _ _ _ _ _ => nofun, fun _ _ _ => nofun, fun _ _ _ => nofun,
    fun id hlock => absurd hlock (hop id)⟩

theorem completes_outside {i : Fin 2} {call : OutsideCall} {w : ChangesWorld (Fin 2)}
    {r : Except ChangesError call.Answer} (hfree : w.holder = none)
    (hcall : ∀ branch, call ≠ .pushDelete branch) : Completes (i, .outside call) w r := by
  constructor
  case updates =>
    intro held hheld
    rw [hfree] at hheld
    cases hheld
  case pushes =>
    intro branch hpush
    exact absurd (ChangesAction.outside.inj hpush) (hcall branch)
  all_goals
    intro _ hop
    cases hop

/-- A creation whose primary workspace fails is taken back. -/
theorem failed_commands_leave_registry_rollback : ∃ e w',
    Prog.Runs completeExec (createChange 0 id sampleCreateArgs).run emptyWorld
      (.done (.error e)) w' ∧
    w'.registry = emptyWorld.registry ∧ w'.branches = emptyWorld.branches := by
  have hE : AllowsPlain completeExec := by
    refine fun i a w v w' ha h => ⟨h, completes_of_ok ?_⟩
    rintro id rfl
    exact ha.elim
  let held : Held (Fin 2) := ⟨0, .create sampleRecord, branchWorld.registry.index⟩
  let w₁ : ChangesWorld (Fin 2) := { branchWorld with
    registry := ⟨sampleIndex, Registry.empty.active.put sampleRecord validChangeId_sample, []⟩
    log := [⟨0, .created sampleRecord branchWorld.registry.index⟩] }
  have hcreated : Returns completeExec (withStoreLock 0 (.create sampleRecord)) branchWorld ()
      w₁ := by
    refine returns_bind.mpr ⟨(), { branchWorld with holder := some held }, returns_attempt.mpr
      ⟨.inl ⟨rfl, rfl, rfl⟩, completes_of_ok nofun⟩, ?_⟩
    refine returns_bind.mpr ⟨(), { w₁ with holder := some held }, returns_onError.mpr ?_,
      returns_invoke (a := .unlock) hE trivial ⟨held, rfl, rfl, rfl, rfl⟩⟩
    refine returns_bind.mpr ⟨_, _, returns_invoke (a := .readIndex) hE trivial
      (.inl ⟨rfl, rfl⟩), ?_⟩
    refine returns_bind.mpr ⟨(), { indexWorld with holder := some held },
      returns_invoke (a := .writeIndex _) hE trivial ⟨held, rfl, rfl, .inl ⟨rfl, rfl⟩⟩, ?_⟩
    exact returns_invoke (a := .writeActiveRecord sampleRecord) hE trivial
      ⟨held, rfl, rfl, .inl ⟨validChangeId_sample, rfl, rfl⟩⟩
  have hfailed : Prog.Runs completeExec (createWithOutput 0 "ch-1" "ch-1" false).run w₁
      (.done (.error .call)) w₁ := by
    refine runs_bind_error (runs_attempt_done.mpr ⟨⟨rfl, ?_⟩, ?_⟩)
    · rintro e ⟨⟩
      exact ⟨rfl, nofun⟩
    · exact completes_outside rfl fun _ h => by cases h
  let rollback : Held (Fin 2) := ⟨0, .rollback "ch-1", sampleIndex⟩
  let w₂ : ChangesWorld (Fin 2) := { w₁ with
    registry := ⟨sampleIndex.clearMappingsForChange "ch-1", w₁.registry.active.remove "ch-1", []⟩
    log := rollback.note w₁.log }
  have hrolledBack : Returns completeExec (withStoreLock 0 (.rollback "ch-1")) w₁ () w₂ := by
    have hreplaces : Completes (0, .lock (.rollback "ch-1")) w₁ (.ok ()) := by
      refine ⟨fun _ _ _ _ => nofun, fun _ _ _ _ _ => nofun, fun _ _ _ => nofun,
        fun _ _ _ => nofun, ?_⟩
      rintro id - before who record found hlog
      obtain ⟨-, hentry⟩ := List.append_inj' ((List.nil_append _).trans hlog) rfl
      cases hentry
      exact ⟨rfl, rfl⟩
    refine returns_bind.mpr ⟨(), { w₁ with holder := some rollback }, returns_attempt.mpr
      ⟨.inl ⟨rfl, rfl, rfl⟩, hreplaces⟩, ?_⟩
    refine returns_bind.mpr ⟨(), { w₂ with holder := some rollback }, returns_onError.mpr ?_,
      returns_invoke (a := .unlock) hE trivial ⟨rollback, rfl, rfl, rfl, rfl⟩⟩
    refine returns_bind.mpr ⟨_, _, returns_invoke (a := .readIndex) hE trivial
      (.inl ⟨rfl, rfl⟩), ?_⟩
    refine returns_bind.mpr ⟨(), { w₁ with
      holder := some rollback
      registry := { w₁.registry with index := sampleIndex.clearMappingsForChange "ch-1" } },
      returns_invoke (a := .writeIndex _) hE trivial ⟨rollback, rfl, rfl, .inl ⟨rfl, rfl⟩⟩, ?_⟩
    exact returns_invoke (a := .deleteActiveRecord "ch-1") hE trivial
      ⟨rollback, rfl, rfl, .inl ⟨rfl, rfl⟩⟩
  let w₃ : ChangesWorld (Fin 2) := { w₂ with branches := w₂.branches.erase "feat/ch-1-x" }
  have hdeleted : Returns completeExec
      (ignoreError (invoke 0 (.deleteRef "feat/ch-1-x" true))) w₂ () w₃ :=
    returns_ignoreError.mpr ⟨.ok (), returns_invoke (a := .deleteRef "feat/ch-1-x" true) hE trivial
      (.inl ⟨rfl, rfl⟩)⟩
  have hback : Returns completeExec (rollbackChangeCreate 0 "ch-1" "feat/ch-1-x") w₁ () w₃ :=
    returns_bind.mpr ⟨(), w₂, hrolledBack, hdeleted⟩
  have hrun : Prog.Runs completeExec (createChange 0 id sampleCreateArgs).run emptyWorld
      (.done (.error (.primaryWorkspace "ch-1" .call))) w₃ := by
    refine (runs_createChange hE).trans (hcreated.bind_runs ?_)
    exact runs_bind_done.mpr ⟨.error .call, w₁, hfailed, hback.bind_runs (.refl _ _)⟩
  have hreachable : Reachable id emptyWorld := .start ∅ ∅
  exact ⟨_, w₃, hrun, (failed_commands_leave_registry id hreachable).1 0 sampleCreateArgs _ _ hrun⟩

end Stopped

end Maw.Changes
