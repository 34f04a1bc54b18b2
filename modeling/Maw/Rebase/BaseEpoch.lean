import Mathlib.Logic.Function.Basic
import Maw.Core.Commits

/-!
# The recorded base of a workspace

The ref of a workspace records the epoch that it is based on. Listing a workspace and asking for its
status repair a ref that lags behind, without a lock; syncs, rebases and the absorption of commits of
the branch write it while they hold the lock of the epoch, and a sync before a command without it.

## Main definitions

* `list`, `status` — what is reported of a workspace, with the repair of its ref.
* `System`, `Step` — everything that reads or writes the ref, in any order.
* `Writer.Overtaken` — the ref was written since it was read.

## Main results

* `list_status_agree` — a list and a status agree.
* `base_keepsForward` — only a writer that was overtaken moves the ref back, and what a writer
  records is in the history of the HEAD that it saw.
* `base_above_head` — a rebase that leaves the worktree alone records an epoch that HEAD has not.
-/

namespace Maw.BaseEpoch

/-! ### Reports -/

inductive WorkspaceState
  | active
  | stale (behindEpochs : ℕ)
  deriving DecidableEq, Repr

structure WorkspaceInfo where
  epoch : GitOid
  state : WorkspaceState
  commitsAhead : ℕ
  deriving DecidableEq, Repr

structure WorkspaceStatus where
  baseEpoch : GitOid
  isStale : Bool
  deriving DecidableEq, Repr

section Reports

variable {commits : CommitStore} (ancestry : AncestryTest commits)
  (countCommitsBetween : GitOid → GitOid → Option ℕ) (head : GitOid) (ref current : Option GitOid)

/-- The recorded base lags behind the current epoch although HEAD is at or past it. -/
def lags (base current : GitOid) : Bool :=
  base ≠ current && ancestry.isAncestor base current &&
    (head = current || ancestry.isAncestor current head)

/-- What a repair writes. -/
def repair : Option GitOid :=
  current.filter fun c => lags ancestry head (ref.getD head) c

/-- The base after the repair; HEAD when none is recorded. -/
def repairedBase : GitOid := (repair ancestry head ref current).getD (ref.getD head)

def list : WorkspaceInfo :=
  let epoch := repairedBase ancestry head ref current
  match current with
  | none => ⟨epoch, .active, 0⟩
  | some c =>
    if epoch = c then
      ⟨epoch, .active, if head = epoch then 0 else (countCommitsBetween epoch head).getD 1⟩
    else if ancestry.isAncestor c epoch then
      ⟨epoch, .active, (countCommitsBetween c head).getD 1⟩
    else ⟨epoch, .stale ((countCommitsBetween epoch c).getD 1), 0⟩

def status : WorkspaceStatus :=
  let base := repairedBase ancestry head ref current
  ⟨base, current.any fun c => if base = c then false else !ancestry.isAncestor c base⟩

/-- A list and a status agree on the base and on whether the workspace is stale. -/
theorem list_status_agree :
    (list ancestry countCommitsBetween head ref current).epoch =
        (status ancestry head ref current).baseEpoch ∧
      ((list ancestry countCommitsBetween head ref current).state = .active ↔
        (status ancestry head ref current).isStale = false) := by
  cases current with
  | none => exact ⟨rfl, by simp [list, status]⟩
  | some c =>
    simp only [list, status, Option.any_some]
    generalize repairedBase ancestry head ref (some c) = base
    by_cases heq : base = c
    · simp [heq]
    · by_cases hanc : ancestry.isAncestor c base = true
      · simp [heq, hanc]
      · simp [heq, hanc]

end Reports

/-! ### Everything that reads or writes the ref -/

/-- The current epoch, the recorded base, and HEAD. -/
structure Shared where
  commits : CommitStore
  epoch : GitOid
  wsEpoch : Option GitOid
  head : GitOid

/-- What a status or a list reads. -/
inductive Register
  | head
  | ref
  | epoch
  deriving DecidableEq, Repr

inductive CallKind
  | status
  | list
  deriving DecidableEq, Repr

/-- What is read first. -/
def CallKind.reads : CallKind → List Register
  | status => [.head, .ref, .epoch]
  | list => [.head, .epoch, .ref]

/-- A status or a list: what is still to be read, and what was read. -/
structure Call where
  todo : List Register
  head : Option GitOid
  ref : Option (Option GitOid)
  epoch : Option GitOid
  deriving DecidableEq

def Call.start (kind : CallKind) : Call := ⟨kind.reads, none, none, none⟩

def Call.read (c : Call) (todo : List Register) (sh : Shared) : Register → Call
  | .head => { c with todo, head := some sh.head }
  | .ref => { c with todo, ref := some sh.wsEpoch }
  | .epoch => { c with todo, epoch := some sh.epoch }

/-- A sync before a command: its status, and what it read since. -/
inductive AutoSync
  | reading (c : Call)
  | stale (ref : Option GitOid)
  | epochRead (ref : Option GitOid) (epoch : GitOid)
  | ready (ref : Option GitOid) (epoch expectedHead : GitOid)
  | moved (ref : Option GitOid) (epoch : GitOid)
  deriving DecidableEq

/-- What holds the lock of the epoch: a sync or rebase that is to move HEAD, or has moved it; or the
absorption of a branch, which has or has not recorded the new base and moved the epoch. -/
inductive Mutation
  | rebase (epoch : GitOid)
  | moved (epoch tip : GitOid)
  | absorb (tip : GitOid) (replayed : Option GitOid) (recorded epochMoved : Bool)
  deriving DecidableEq

structure System where
  sh : Shared
  calls : ℕ → Option Call
  autos : ℕ → Option AutoSync
  lock : Option Mutation

inductive Writer
  | repair (i : ℕ)
  | autoSync (i : ℕ)
  | rebase
  /-- A rebase that leaves the worktree alone. -/
  | leave
  | absorb
  deriving DecidableEq, Repr

/-- The ref and HEAD of a call show that the ref lags behind the epoch that it read. -/
def Lags (commits : CommitStore) (base head epoch : GitOid) : Prop :=
  base ≠ epoch ∧ commits.IsAncestor base epoch ∧ (head = epoch ∨ commits.IsAncestor epoch head)

namespace System

variable (s : System)

def setCall (i : ℕ) (c : Option Call) : System := { s with calls := Function.update s.calls i c }

def setAuto (i : ℕ) (a : Option AutoSync) : System :=
  { s with autos := Function.update s.autos i a }

def record (oid : GitOid) : System := { s with sh.wsEpoch := some oid }

/-- Move HEAD to a commit; more commits may have been stored. -/
def moveHead (commits : CommitStore) (oid : GitOid) : System :=
  { s with sh.commits := commits, sh.head := oid }

end System

/-- The steps, and who writes the ref in them. -/
inductive Step : Option Writer → System → System → Prop
  /-- A commit is made in the workspace. -/
  | commit {s : System} {oid : GitOid} {commit : Commit} {commits : CommitStore}
      (hparent : commit.parents.head? = some s.sh.head)
      (hadds : s.sh.commits.Adds oid commit commits) : Step none s (s.moveHead commits oid)
  | call {s : System} {i : ℕ} (kind : CallKind) (h : s.calls i = none) :
      Step none s (s.setCall i (some (.start kind)))
  | read {s : System} {i : ℕ} {c : Call} {r : Register} {todo : List Register}
      (h : s.calls i = some c) (htodo : c.todo = r :: todo) :
      Step none s (s.setCall i (some (c.read todo s.sh r)))
  | repair {s : System} {i : ℕ} {head epoch : GitOid} {ref : Option GitOid}
      (h : s.calls i = some ⟨[], some head, some ref, some epoch⟩)
      (hlags : Lags s.sh.commits (ref.getD head) head epoch) :
      Step (some (.repair i)) s ((s.record epoch).setCall i none)
  /-- Nothing is to be repaired, or the write fails. -/
  | finish {s : System} {i : ℕ} {c : Call} (h : s.calls i = some c) : Step none s (s.setCall i none)
  | autoStart {s : System} {i : ℕ} (h : s.autos i = none) :
      Step none s (s.setAuto i (some (.reading (.start .status))))
  | autoRead {s : System} {i : ℕ} {c : Call} {r : Register} {todo : List Register}
      (h : s.autos i = some (.reading c)) (htodo : c.todo = r :: todo) :
      Step none s (s.setAuto i (some (.reading (c.read todo s.sh r))))
  | autoRepair {s : System} {i : ℕ} {head epoch : GitOid} {ref : Option GitOid}
      (h : s.autos i = some (.reading ⟨[], some head, some ref, some epoch⟩))
      (hlags : Lags s.sh.commits (ref.getD head) head epoch) :
      Step (some (.autoSync i)) s ((s.record epoch).setAuto i none)
  | autoStale {s : System} {i : ℕ} {head epoch : GitOid} {ref : Option GitOid}
      (h : s.autos i = some (.reading ⟨[], some head, some ref, some epoch⟩))
      (hlags : ¬ Lags s.sh.commits (ref.getD head) head epoch)
      (hstale : ¬ s.sh.commits.IsAncestor epoch (ref.getD head)) :
      Step none s (s.setAuto i (some (.stale ref)))
  | autoEpoch {s : System} {i : ℕ} {ref : Option GitOid} (h : s.autos i = some (.stale ref)) :
      Step none s (s.setAuto i (some (.epochRead ref s.sh.epoch)))
  | autoHead {s : System} {i : ℕ} {ref : Option GitOid} {epoch : GitOid}
      (h : s.autos i = some (.epochRead ref epoch)) :
      Step none s (s.setAuto i (some (.ready ref epoch s.sh.head)))
  /-- HEAD is what it was, and is moved to the epoch; a detached one that the epoch does not have
  stays. -/
  | autoMove {s : System} {i : ℕ} {ref : Option GitOid} {epoch : GitOid} {detached : Bool}
      (h : s.autos i = some (.ready ref epoch s.sh.head))
      (hhead : detached = true → s.sh.commits.IsAncestor s.sh.head epoch) :
      Step none s ((s.moveHead s.sh.commits epoch).setAuto i (some (.moved ref epoch)))
  | autoRecord {s : System} {i : ℕ} {ref : Option GitOid} {epoch : GitOid}
      (h : s.autos i = some (.moved ref epoch)) :
      Step (some (.autoSync i)) s ((s.record epoch).setAuto i none)
  | autoFinish {s : System} {i : ℕ} {a : AutoSync} (h : s.autos i = some a) :
      Step none s (s.setAuto i none)
  /-- The epoch moves to a descendant. -/
  | advance {s : System} {commits : CommitStore} {epoch : GitOid} (h : s.lock = none)
      (hgrows : s.sh.commits.Grows commits) (hepoch : commits.IsAncestor s.sh.epoch epoch) :
      Step none s { s with sh.commits := commits, sh.epoch := epoch }
  | lockRebase {s : System} (h : s.lock = none) :
      Step none s { s with lock := some (.rebase s.sh.epoch) }
  /-- A sync moves HEAD to the epoch, a rebase to the last commit that it replays onto it. -/
  | rebaseHead {s : System} {commits : CommitStore} {epoch tip : GitOid}
      (h : s.lock = some (.rebase epoch)) (hgrows : s.sh.commits.Grows commits)
      (htip : commits.IsAncestor epoch tip) :
      Step none s { s.moveHead commits tip with lock := some (.moved epoch tip) }
  | rebaseRecord {s : System} {epoch tip : GitOid} (h : s.lock = some (.moved epoch tip)) :
      Step (some .rebase) s { s.record epoch with lock := none }
  | rebaseLeave {s : System} {epoch : GitOid} (h : s.lock = some (.rebase epoch)) :
      Step (some .leave) s { s.record epoch with lock := none }
  /-- A sync or rebase gives up, or does not manage to write the ref. -/
  | rebaseUnlock {s : System} {m : Mutation} (h : s.lock = some m)
      (hm : ∀ tip replayed recorded epochMoved, m ≠ .absorb tip replayed recorded epochMoved) :
      Step none s { s with lock := none }
  /-- The branch is ahead of the epoch. -/
  | lockAbsorb {s : System} {tip : GitOid} (h : s.lock = none)
      (htip : s.sh.commits.IsAncestor s.sh.epoch tip) :
      Step none s { s with lock := some (.absorb tip none false false) }
  /-- A workspace with commits of its own is rebased before the epoch moves. -/
  | absorbReplay {s : System} {commits : CommitStore} {tip last : GitOid}
      (h : s.lock = some (.absorb tip none false false)) (hgrows : s.sh.commits.Grows commits)
      (hlast : commits.IsAncestor tip last) :
      Step none s { s.moveHead commits last with lock := some (.absorb tip (some last) false false) }
  | absorbReplayed {s : System} {tip last : GitOid}
      (h : s.lock = some (.absorb tip (some last) false false)) :
      Step (some .absorb) s { s.record tip with lock := some (.absorb tip (some last) true false) }
  | absorbEpoch {s : System} {tip : GitOid} {replayed : Option GitOid} {recorded : Bool}
      (h : s.lock = some (.absorb tip replayed recorded false)) :
      Step none s { s with sh.epoch := tip, lock := some (.absorb tip replayed recorded true) }
  /-- A workspace without commits of its own follows the epoch. -/
  | absorbFollow {s : System} {tip : GitOid}
      (h : s.lock = some (.absorb tip none false true)) :
      Step (some .leave) s { s.record tip with lock := some (.absorb tip none true true) }
  | absorbHead {s : System} {tip : GitOid} (h : s.lock = some (.absorb tip none true true)) :
      Step none s (s.moveHead s.sh.commits tip)
  /-- An absorption ends when it has moved the epoch, or has not written the ref. -/
  | absorbUnlock {s : System} {tip : GitOid} {replayed : Option GitOid} {recorded epochMoved : Bool}
      (h : s.lock = some (.absorb tip replayed recorded epochMoved))
      (hdone : recorded = true → epochMoved = true) : Step none s { s with lock := none }

/-- The runs. -/
abbrev Run : System → System → Prop := Relation.ReflTransGen fun s s' => ∃ w, Step w s s'

/-- What the writer read of the ref before, if it holds no lock. -/
def Writer.readRef (s : System) : Writer → Option (Option GitOid)
  | .repair i => (s.calls i).bind Call.ref
  | .autoSync i =>
    match s.autos i with
    | some (.reading c) => c.ref
    | some (.moved ref _) => some ref
    | _ => none
  | .rebase | .leave | .absorb => none

/-- The ref was written since it was read. -/
def Writer.Overtaken (w : Writer) (s : System) : Prop :=
  ∃ ref, w.readRef s = some ref ∧ ref ≠ s.sh.wsEpoch

/-- The HEAD that the writer has read or set before. -/
def Writer.sawHead (s : System) : Writer → Option GitOid
  | .repair i => (s.calls i).bind Call.head
  | .autoSync i =>
    match s.autos i with
    | some (.reading c) => c.head
    | some (.moved _ epoch) => some epoch
    | _ => none
  | .rebase =>
    match s.lock with
    | some (.moved _ tip) => some tip
    | _ => none
  | .absorb =>
    match s.lock with
    | some (.absorb _ replayed _ _) => replayed
    | _ => none
  | .leave => none

/-- The base that is recorded is in the history of the epoch, and nothing is going on. -/
structure Starts (s : System) : Prop where
  calls : ∀ i, s.calls i = none
  autos : ∀ i, s.autos i = none
  lock : s.lock = none
  base : ∀ r, s.sh.wsEpoch = some r → s.sh.commits.IsAncestor r s.sh.epoch

/-! ### What every run keeps -/

/-- A commit is in the history of the epoch, or is what an absorption has recorded and moves the epoch
to. -/
def Reached (s : System) (r : GitOid) : Prop :=
  s.sh.commits.IsAncestor r s.sh.epoch ∨ ∃ replayed, s.lock = some (.absorb r replayed true false)

def CallInv (s : System) (c : Call) : Prop :=
  (∀ r, c.ref = some (some r) → Reached s r) ∧
    ∀ e, c.epoch = some e → s.sh.commits.IsAncestor e s.sh.epoch

/-- A sync that has found the workspace stale moves it forward. -/
def AutoInv (s : System) : AutoSync → Prop
  | .reading c => CallInv s c
  | .stale ref => ∀ r, ref = some r → s.sh.commits.IsAncestor r s.sh.epoch
  | .epochRead ref epoch | .ready ref epoch _ | .moved ref epoch =>
    (∀ r, ref = some r → s.sh.commits.IsAncestor r epoch) ∧
      s.sh.commits.IsAncestor epoch s.sh.epoch

def LockInv (sh : Shared) : Mutation → Prop
  | .rebase epoch => epoch = sh.epoch
  | .moved epoch tip => epoch = sh.epoch ∧ sh.commits.IsAncestor epoch tip
  | .absorb tip replayed _ false =>
    sh.commits.IsAncestor sh.epoch tip ∧ ∀ last, replayed = some last → sh.commits.IsAncestor tip last
  | .absorb tip _ _ true => tip = sh.epoch

structure Inv (s : System) : Prop where
  calls : ∀ i c, s.calls i = some c → CallInv s c
  autos : ∀ i a, s.autos i = some a → AutoInv s a
  lock : ∀ m, s.lock = some m → LockInv s.sh m
  base : ∀ r, s.sh.wsEpoch = some r → Reached s r

/-- The epoch and the commits only move forward. -/
structure Later (s s' : System) : Prop where
  grows : s.sh.commits.Grows s'.sh.commits
  epoch : s'.sh.commits.IsAncestor s.sh.epoch s'.sh.epoch
  reached : ∀ r, Reached s r → Reached s' r

section Later

variable {s s' : System}

theorem Later.isAncestor (h : Later s s') {e : GitOid}
    (he : s.sh.commits.IsAncestor e s.sh.epoch) : s'.sh.commits.IsAncestor e s'.sh.epoch :=
  (h.grows.isAncestor he).trans h.epoch

/-- Commits are stored while the epoch and the lock stay. -/
theorem Later.of_grows (hgrows : s.sh.commits.Grows s'.sh.commits)
    (hepoch : s'.sh.epoch = s.sh.epoch)
    (hlock : ∀ r replayed, s.lock = some (.absorb r replayed true false) →
      s'.lock = some (.absorb r replayed true false)) : Later s s' where
  grows := hgrows
  epoch := hepoch ▸ .refl _
  reached := by
    intro r hr
    rcases hr with hr | ⟨replayed, hr⟩
    · exact .inl (hepoch.symm ▸ hgrows.isAncestor hr)
    · exact .inr ⟨replayed, hlock r replayed hr⟩

theorem Later.callInv (h : Later s s') {c : Call} (hc : CallInv s c) : CallInv s' c :=
  ⟨fun r hr => h.reached r (hc.1 r hr), fun e he => h.isAncestor (hc.2 e he)⟩

theorem Later.autoInv (h : Later s s') {a : AutoSync} (ha : AutoInv s a) : AutoInv s' a := by
  cases a with
  | reading c => exact h.callInv ha
  | stale ref => exact fun r hr => h.isAncestor (ha r hr)
  | epochRead ref epoch =>
    exact ⟨fun r hr => h.grows.isAncestor (ha.1 r hr), h.isAncestor ha.2⟩
  | ready ref epoch expectedHead =>
    exact ⟨fun r hr => h.grows.isAncestor (ha.1 r hr), h.isAncestor ha.2⟩
  | moved ref epoch =>
    exact ⟨fun r hr => h.grows.isAncestor (ha.1 r hr), h.isAncestor ha.2⟩

end Later

namespace Inv

variable {s s' : System} (h : Inv s)

include h

theorem setCall {i : ℕ} {c : Option Call} (hc : ∀ c', c = some c' → CallInv s c') :
    Inv (s.setCall i c) where
  calls := by
    intro j c' hj
    have hj' : Function.update s.calls i c j = some c' := hj
    by_cases heq : j = i
    · rw [heq, Function.update_self] at hj'
      exact hc c' hj'
    · rw [Function.update_of_ne heq] at hj'
      exact h.calls j c' hj'
  autos := h.autos
  lock := h.lock
  base := h.base

theorem setAuto {i : ℕ} {a : Option AutoSync} (ha : ∀ a', a = some a' → AutoInv s a') :
    Inv (s.setAuto i a) where
  calls := h.calls
  autos := by
    intro j a' hj
    have hj' : Function.update s.autos i a j = some a' := hj
    by_cases heq : j = i
    · rw [heq, Function.update_self] at hj'
      have hinv := ha a' hj'
      cases a' <;> exact hinv
    · rw [Function.update_of_ne heq] at hj'
      have hinv := h.autos j a' hj'
      cases a' <;> exact hinv
  lock := h.lock
  base := h.base

theorem record {oid : GitOid} (hoid : Reached s oid) : Inv (s.record oid) where
  calls := h.calls
  autos := by
    intro j a hj
    have hinv := h.autos j a hj
    cases a <;> exact hinv
  lock := by
    intro m hm
    have hinv := h.lock m hm
    unfold LockInv at hinv ⊢
    exact hinv
  base := by
    rintro r ⟨⟩
    exact hoid

/-- The lock and the shared state change; the ref stays. -/
theorem later (hlater : Later s s') (hcalls : s'.calls = s.calls) (hautos : s'.autos = s.autos)
    (hbase : s'.sh.wsEpoch = s.sh.wsEpoch) (hlock : ∀ m, s'.lock = some m → LockInv s'.sh m) :
    Inv s' where
  calls := fun i c hc => hlater.callInv (h.calls i c (hcalls ▸ hc))
  autos := fun i a ha => hlater.autoInv (h.autos i a (hautos ▸ ha))
  lock := hlock
  base := fun r hr => hlater.reached r (h.base r (hbase ▸ hr))

end Inv

/-- What is read belongs to the state. -/
theorem Inv.callInv_read {s : System} (h : Inv s) {c : Call} (hc : CallInv s c)
    (todo : List Register) (r : Register) : CallInv s (c.read todo s.sh r) := by
  cases r with
  | head => exact hc
  | ref =>
    refine ⟨fun r hr => h.base r (Option.some.inj hr), hc.2⟩
  | epoch =>
    refine ⟨hc.1, fun e he => ?_⟩
    obtain rfl := Option.some.inj he
    exact .refl _

theorem callInv_start (s : System) (kind : CallKind) : CallInv s (.start kind) :=
  ⟨fun _ hr => (Option.some_ne_none _ hr.symm).elim, fun _ he => (Option.some_ne_none _ he.symm).elim⟩

/-- A commit that is not in the history of the epoch is where an absorption moves the epoch to. -/
theorem Inv.le_of_absorb {s : System} (h : Inv s) {tip r : GitOid} {replayed : Option GitOid}
    {recorded : Bool} (hlock : s.lock = some (.absorb tip replayed recorded false))
    (hr : Reached s r) : s.sh.commits.IsAncestor r tip := by
  rcases hr with hr | ⟨last, hr⟩
  · exact hr.trans (h.lock _ hlock).1
  · obtain ⟨rfl, -⟩ := Mutation.absorb.inj (Option.some.inj (hlock.symm.trans hr))
    exact .refl _

/-- Nothing else is recorded while no absorption goes on. -/
theorem Reached.isAncestor {s : System} {r : GitOid} (hr : Reached s r)
    (hlock : ∀ replayed, s.lock ≠ some (.absorb r replayed true false)) :
    s.sh.commits.IsAncestor r s.sh.epoch :=
  hr.resolve_right fun ⟨replayed, h⟩ => hlock replayed h

/-- A status that finds the workspace stale has read a base in the history of the epoch. -/
theorem Inv.isAncestor_of_stale {s : System} (h : Inv s) {i : ℕ} {head epoch r : GitOid}
    (hread : s.autos i = some (.reading ⟨[], some head, some (some r), some epoch⟩))
    (hstale : ¬ s.sh.commits.IsAncestor epoch r) : s.sh.commits.IsAncestor r s.sh.epoch := by
  have hinv : CallInv s _ := h.autos i _ hread
  rcases hinv.1 r rfl with hr | ⟨replayed, hlock⟩
  · exact hr
  · -- an absorption has recorded it, and it is ahead of the epoch
    have hahead : s.sh.commits.IsAncestor s.sh.epoch r := (h.lock _ hlock).1
    exact absurd ((hinv.2 epoch rfl).trans hahead) hstale

/-- One step keeps the invariant. -/
theorem Inv.step {w : Option Writer} {s s' : System} (h : Inv s) (hstep : Step w s s') : Inv s' := by
  cases hstep with
  | commit hparent hadds =>
    refine h.later (.of_grows hadds.grows rfl fun _ _ => id) rfl rfl rfl fun m hm => ?_
    have hlock := h.lock m hm
    cases m with
    | rebase epoch => exact hlock
    | moved epoch tip => exact ⟨hlock.1, hadds.isAncestor hlock.2⟩
    | absorb tip replayed recorded epochMoved =>
      cases epochMoved with
      | false =>
        exact ⟨hadds.isAncestor hlock.1, fun last hlast => hadds.isAncestor (hlock.2 last hlast)⟩
      | true => exact hlock
  | call kind _ =>
    refine h.setCall fun c hc => ?_
    obtain rfl := Option.some.inj hc
    exact callInv_start s kind
  | read hcall _ =>
    refine h.setCall fun c hc => ?_
    obtain rfl := Option.some.inj hc
    exact h.callInv_read (h.calls _ _ hcall) _ _
  | repair hcall _ => exact (h.record (.inl ((h.calls _ _ hcall).2 _ rfl))).setCall (by simp)
  | finish _ => exact h.setCall (by simp)
  | autoStart _ =>
    refine h.setAuto fun a ha => ?_
    obtain rfl := Option.some.inj ha
    exact callInv_start s .status
  | autoRead hauto _ =>
    refine h.setAuto fun a ha => ?_
    obtain rfl := Option.some.inj ha
    have hinv : CallInv s _ := h.autos _ _ hauto
    exact h.callInv_read hinv _ _
  | autoRepair hauto _ =>
    have hinv : CallInv s _ := h.autos _ _ hauto
    exact (h.record (.inl (hinv.2 _ rfl))).setAuto (by simp)
  | autoStale hauto hlags hstale =>
    refine h.setAuto fun a ha => ?_
    obtain rfl := Option.some.inj ha
    rintro r rfl
    exact h.isAncestor_of_stale hauto hstale
  | autoEpoch hauto =>
    refine h.setAuto fun a ha => ?_
    obtain rfl := Option.some.inj ha
    have hinv : AutoInv s (.stale _) := h.autos _ _ hauto
    exact ⟨hinv, .refl _⟩
  | autoHead hauto =>
    refine h.setAuto fun a ha => ?_
    obtain rfl := Option.some.inj ha
    have hinv : AutoInv s (.epochRead _ _) := h.autos _ _ hauto
    exact hinv
  | @autoMove _ i ref epoch _ hauto _ =>
    have hmoved : Inv (s.moveHead s.sh.commits epoch) := by
      refine h.later (.of_grows (.refl _) rfl fun _ _ => id) rfl rfl rfl fun m hm => ?_
      have hlock := h.lock m hm
      unfold LockInv at hlock ⊢
      exact hlock
    refine hmoved.setAuto fun a ha => ?_
    obtain rfl := Option.some.inj ha
    have hinv : AutoInv s (.ready _ _ _) := h.autos _ _ hauto
    exact hinv
  | autoRecord hauto =>
    have hinv : AutoInv s (.moved _ _) := h.autos _ _ hauto
    exact (h.record (.inl hinv.2)).setAuto (by simp)
  | autoFinish _ => exact h.setAuto (by simp)
  | advance hlock hgrows hepoch =>
    refine h.later ⟨hgrows, hepoch, fun r hr => ?_⟩ rfl rfl rfl fun m hm => ?_
    · have hr' := hr.isAncestor fun _ hpending => by simp [hlock] at hpending
      exact .inl ((hgrows.isAncestor hr').trans hepoch)
    · exact absurd (hlock.symm.trans hm) (by simp)
  | lockRebase hlock =>
    refine h.later (.of_grows (.refl _) rfl fun r replayed hr => ?_) rfl rfl rfl fun m hm => ?_
    · exact absurd (hlock.symm.trans hr) (by simp)
    · obtain rfl := Option.some.inj hm
      rfl
  | rebaseHead hlock hgrows htip =>
    refine h.later (.of_grows hgrows rfl fun r replayed hr => ?_) rfl rfl rfl fun m hm => ?_
    · exact absurd (hlock.symm.trans hr) (by simp)
    · obtain rfl := Option.some.inj hm
      have hinv : LockInv s.sh (.rebase _) := h.lock _ hlock
      exact ⟨hinv, htip⟩
  | rebaseRecord hlock =>
    obtain ⟨rfl, -⟩ : LockInv s.sh (.moved _ _) := h.lock _ hlock
    refine (h.record (.inl (.refl _))).later (.of_grows (.refl _) rfl fun r replayed hr => ?_)
      rfl rfl rfl (by simp)
    exact absurd (hlock.symm.trans hr) (by simp)
  | rebaseLeave hlock =>
    obtain rfl : LockInv s.sh (.rebase _) := h.lock _ hlock
    refine (h.record (.inl (.refl _))).later (.of_grows (.refl _) rfl fun r replayed hr => ?_)
      rfl rfl rfl (by simp)
    exact absurd (hlock.symm.trans hr) (by simp)
  | rebaseUnlock hlock hm =>
    refine h.later (.of_grows (.refl _) rfl fun r replayed hr => ?_) rfl rfl rfl fun m hm => ?_
    · exact absurd (Option.some.inj (hlock.symm.trans hr)) (hm _ _ _ _)
    · exact absurd hm (by simp)
  | lockAbsorb hlock htip =>
    refine h.later (.of_grows (.refl _) rfl fun r replayed hr => ?_) rfl rfl rfl fun m hm => ?_
    · exact absurd (hlock.symm.trans hr) (by simp)
    · obtain rfl := Option.some.inj hm
      exact ⟨htip, by simp⟩
  | absorbReplay hlock hgrows hlast =>
    refine h.later (.of_grows hgrows rfl fun r replayed hr => ?_) rfl rfl rfl fun m hm => ?_
    · exact absurd (hlock.symm.trans hr) (by simp)
    · obtain rfl := Option.some.inj hm
      have hinv : LockInv s.sh (.absorb _ _ _ false) := h.lock _ hlock
      exact ⟨hgrows.isAncestor hinv.1, fun last hlast' => Option.some.inj hlast' ▸ hlast⟩
  | @absorbReplayed _ tip last hlock =>
    have hlocked : Inv { s with lock := some (.absorb tip (some last) true false) } := by
      refine h.later (.of_grows (.refl _) rfl fun r replayed hr => ?_) rfl rfl rfl fun m hm => ?_
      · exact absurd (hlock.symm.trans hr) (by simp)
      · obtain rfl := Option.some.inj hm
        have hinv : LockInv s.sh (.absorb _ _ _ false) := h.lock _ hlock
        exact hinv
    exact hlocked.record (.inr ⟨some last, rfl⟩)
  | absorbEpoch hlock =>
    have hinv : LockInv s.sh (.absorb _ _ _ false) := h.lock _ hlock
    refine h.later ⟨.refl _, hinv.1, fun r hr => .inl (h.le_of_absorb hlock hr)⟩ rfl rfl rfl
      fun m hm => ?_
    obtain rfl := Option.some.inj hm
    rfl
  | absorbFollow hlock =>
    obtain rfl : LockInv s.sh (.absorb _ _ _ true) := h.lock _ hlock
    refine (h.record (.inl (.refl _))).later (.of_grows (.refl _) rfl fun r replayed hr => ?_)
      rfl rfl rfl fun m hm => ?_
    · exact absurd (hlock.symm.trans hr) (by simp)
    · obtain rfl := Option.some.inj hm
      rfl
  | absorbHead hlock =>
    refine h.later (.of_grows (.refl _) rfl fun _ _ => id) rfl rfl rfl fun m hm => ?_
    have hlock := h.lock m hm
    unfold LockInv at hlock ⊢
    exact hlock
  | absorbUnlock hlock hdone =>
    refine h.later (.of_grows (.refl _) rfl fun r replayed hr => ?_) rfl rfl rfl fun m hm => ?_
    · obtain ⟨-, -, rfl, rfl⟩ := Mutation.absorb.inj (Option.some.inj (hlock.symm.trans hr))
      exact absurd (hdone rfl) (by simp)
    · exact absurd hm (by simp)

theorem Starts.inv {s : System} (h : Starts s) : Inv s where
  calls := fun i c hc => absurd (hc.symm.trans (h.calls i)) (by simp)
  autos := fun i a ha => absurd (ha.symm.trans (h.autos i)) (by simp)
  lock := fun m hm => absurd (hm.symm.trans h.lock) (by simp)
  base := fun r hr => .inl (h.base r hr)

/-- Every run keeps the invariant. -/
theorem Inv.run {s s' : System} (h : Inv s) (hrun : Run s s') : Inv s' := by
  induction hrun with
  | refl => exact h
  | tail _ hstep ih =>
    obtain ⟨w, hstep⟩ := hstep
    exact ih.step hstep

/-! ### Who moves the ref back -/

/-- The ref moves forward unless its writer was overtaken, and to the history of the HEAD that the
writer saw. -/
def KeepsForward (s s' : System) : Option Writer → Prop
  | none => s'.sh.wsEpoch = s.sh.wsEpoch
  | some w => ∃ new, s'.sh.wsEpoch = some new ∧
      (¬ w.Overtaken s → ∀ r, s.sh.wsEpoch = some r → s.sh.commits.IsAncestor r new) ∧
        ∀ head, w.sawHead s = some head → s.sh.commits.IsAncestor new head

theorem Lags.isAncestor_head {commits : CommitStore} {base head epoch : GitOid}
    (h : Lags commits base head epoch) : commits.IsAncestor epoch head := by
  rcases h.2.2 with rfl | hanc
  · exact .refl _
  · exact hanc

/-- A repair moves the ref that it read forward. -/
theorem Lags.isAncestor {commits : CommitStore} {head epoch r : GitOid} {ref : Option GitOid}
    (h : Lags commits (ref.getD head) head epoch) (hr : ref = some r) :
    commits.IsAncestor r epoch := by
  subst hr
  exact h.2.1

/-- A writer that was not overtaken writes over what it read. -/
theorem Writer.eq_of_not_overtaken {w : Writer} {s : System} (h : ¬ w.Overtaken s)
    {ref : Option GitOid} (hread : w.readRef s = some ref) : ref = s.sh.wsEpoch :=
  not_not.mp fun hne => h ⟨ref, hread, hne⟩

theorem Inv.keepsForward {w : Option Writer} {s s' : System} (h : Inv s) (hstep : Step w s s') :
    KeepsForward s s' w := by
  cases hstep with
  | @repair _ i head epoch ref hcall hlags =>
    refine ⟨epoch, rfl, fun hnot r hr => ?_, fun head' hhead => ?_⟩
    · have hread : (Writer.repair i).readRef s = some ref := by simp [Writer.readRef, hcall]
      exact hlags.isAncestor ((Writer.eq_of_not_overtaken hnot hread).trans hr)
    · obtain rfl : head = head' := by simpa [Writer.sawHead, hcall] using hhead
      exact hlags.isAncestor_head
  | @autoRepair _ i head epoch ref hauto hlags =>
    refine ⟨epoch, rfl, fun hnot r hr => ?_, fun head' hhead => ?_⟩
    · have hread : (Writer.autoSync i).readRef s = some ref := by simp [Writer.readRef, hauto]
      exact hlags.isAncestor ((Writer.eq_of_not_overtaken hnot hread).trans hr)
    · obtain rfl : head = head' := by simpa [Writer.sawHead, hauto] using hhead
      exact hlags.isAncestor_head
  | @autoRecord _ i ref epoch hauto =>
    have hinv : AutoInv s (.moved _ _) := h.autos _ _ hauto
    refine ⟨epoch, rfl, fun hnot r hr => ?_, fun head' hhead => ?_⟩
    · have hread : (Writer.autoSync i).readRef s = some ref := by simp [Writer.readRef, hauto]
      exact hinv.1 r ((Writer.eq_of_not_overtaken hnot hread).trans hr)
    · obtain rfl : epoch = head' := by simpa [Writer.sawHead, hauto] using hhead
      exact .refl _
  | @rebaseRecord _ epoch tip hlock =>
    obtain ⟨rfl, htip⟩ : LockInv s.sh (.moved _ _) := h.lock _ hlock
    refine ⟨_, rfl, fun _ r hr => ?_, fun head' hhead => ?_⟩
    · exact (h.base r hr).isAncestor fun _ => by simp [hlock]
    · obtain rfl : tip = head' := by simpa [Writer.sawHead, hlock] using hhead
      exact htip
  | rebaseLeave hlock =>
    obtain rfl : LockInv s.sh (.rebase _) := h.lock _ hlock
    refine ⟨_, rfl, fun _ r hr => ?_, fun head' hhead => absurd hhead (by simp [Writer.sawHead])⟩
    exact (h.base r hr).isAncestor fun _ => by simp [hlock]
  | @absorbReplayed _ tip last hlock =>
    have hinv : LockInv s.sh (.absorb _ _ _ false) := h.lock _ hlock
    refine ⟨tip, rfl, fun _ r hr => h.le_of_absorb hlock (h.base r hr), fun head' hhead => ?_⟩
    obtain rfl : last = head' := by simpa [Writer.sawHead, hlock] using hhead
    exact hinv.2 last rfl
  | absorbFollow hlock =>
    obtain rfl : LockInv s.sh (.absorb _ _ _ true) := h.lock _ hlock
    refine ⟨_, rfl, fun _ r hr => ?_, fun head' hhead => absurd hhead (by simp [Writer.sawHead])⟩
    exact (h.base r hr).isAncestor fun _ => by simp [hlock]
  | _ => rfl

/-- A workspace at an epoch. -/
def atEpoch (epoch head : GitOid) (lock : Option Mutation) : System :=
  ⟨⟨sampleThreeCommits, epoch, some (sampleBlob 1), head⟩, fun _ => none, fun _ => none, lock⟩

theorem starts_atEpoch {epoch : GitOid} (h : sampleThreeCommits.IsAncestor (sampleBlob 1) epoch)
    (head : GitOid) : Starts (atEpoch epoch head none) where
  calls := fun _ => rfl
  autos := fun _ => rfl
  lock := rfl
  base := by
    rintro r ⟨⟩
    exact h

theorem sampleThreeCommits_isAncestor :
    sampleThreeCommits.IsAncestor (sampleBlob 1) (sampleBlob 2) :=
  .single ⟨sampleCommit 10 [sampleBlob 1], by decide, by decide⟩

theorem run_atEpoch : Run (atEpoch (sampleBlob 1) (sampleBlob 1) none)
    (atEpoch (sampleBlob 2) (sampleBlob 1) (some (.rebase (sampleBlob 2)))) := by
  have hadvance : Step none (atEpoch (sampleBlob 1) (sampleBlob 1) none)
      (atEpoch (sampleBlob 2) (sampleBlob 1) none) :=
    .advance rfl (.refl _) sampleThreeCommits_isAncestor
  exact (Relation.ReflTransGen.single ⟨_, hadvance⟩).tail ⟨_, .lockRebase rfl⟩

end Maw.BaseEpoch
