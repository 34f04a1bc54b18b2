import Maw.Oplog.Append
import Maw.Oplog.Transport

/-!
# Machines that sync at the same time

Any number of machines append to their logs, pull and push while the others do. All operations are
stored everywhere, so that only the heads matter. An append moves a head by a compare-and-swap. A
pull compares a head with the fetched one and later writes the head, whatever it is by then; a push
overwrites the heads of the remote. Once nobody appends any more, the heads of all machines are
compared in two rounds.

## Main definitions

* `Shared` — the heads of the machines and of the remote.
* `SyncOp`, `SyncOp.exec` — the calls that machines make, and what they do.
* `append`, `pull`, `push` — the programs.
* `Keeps` — what could be reached from a head can still be reached from it.
* `SyncOp.Careful` — no head is written over one that it does not continue.
* `Round` — the machines pull and push, one after another.

## Main results

* `sync_loses_nothing` — careful runs lose no operation, and two rounds make all heads equal.
* `not_keeps` — a push of an old head loses an operation of the remote.
-/

open Interleaved KeyedSort

namespace Maw.ManifoldSync

open Oplog Transport

/-! ### Heads of logs -/

/-- The id of an operation of the log. -/
abbrev Stored (log : OpStore) := {oid : GitOid // oid ∈ log.nodes}

abbrev Heads (log : OpStore) := FiniteMap NamedWorkspace (Stored log)

variable {log : OpStore}

/-- The operation can be reached from the head of the workspace. -/
def Reaches (heads : Heads log) (ws : NamedWorkspace) (oid : GitOid) : Prop :=
  ∃ head, heads.lookup ws = some head ∧ log.IsAncestor oid head

/-- What can be reached from some heads can be reached from the others. -/
def Below (heads heads' : Heads log) : Prop :=
  ∀ ws oid, Reaches heads ws oid → Reaches heads' ws oid

theorem Below.refl (heads : Heads log) : Below heads heads := fun _ _ h => h

theorem Below.trans {a b c : Heads log} (h : Below a b) (h' : Below b c) : Below a c :=
  fun ws oid hoid => h' ws oid (h ws oid hoid)

theorem below_iff {a b : Heads log} : Below a b ↔ ∀ ws head, a.lookup ws = some head →
    ∃ head', b.lookup ws = some head' ∧ log.IsAncestor head head' := by
  constructor
  · exact fun h ws head hhead => h ws head ⟨head, hhead, .refl _⟩
  · rintro h ws oid ⟨head, hhead, hanc⟩
    obtain ⟨head', hhead', hanc'⟩ := h ws head hhead
    exact ⟨head', hhead', hanc.trans hanc'⟩

theorem Below.antisymm {a b : Heads log} (h : Below a b) (h' : Below b a) : a = b := by
  refine Finmap.ext_lookup fun ws => Option.ext fun head => ?_
  have hle {a b : Heads log} (h : Below a b) (h' : Below b a) (hhead : a.lookup ws = some head) :
      b.lookup ws = some head := by
    obtain ⟨top, htop, hanc⟩ := below_iff.mp h ws head hhead
    obtain ⟨back, hback, hanc'⟩ := below_iff.mp h' ws top htop
    rw [hhead] at hback
    obtain rfl := Option.some.inj hback
    rw [htop, Subtype.ext (hanc.antisymm hanc')]
  exact ⟨hle h h', hle h' h⟩

/-- One head moves to an operation from which the old one can be reached. -/
theorem below_insert {heads : Heads log} {ws : NamedWorkspace} {oid : Stored log}
    (h : ∀ head, heads.lookup ws = some head → log.IsAncestor head oid) :
    Below heads (heads.insert ws oid) := by
  refine below_iff.mpr fun other head hhead => ?_
  rw [FiniteMap.lookup_insert]
  by_cases heq : other = ws
  · subst heq
    exact ⟨oid, if_pos rfl, h head hhead⟩
  · exact ⟨head, by rw [if_neg heq, hhead], .refl _⟩

/-! ### The calls that machines make -/

/-- The heads of the machines, those they have fetched, and the heads of the remote. -/
structure Shared (log : OpStore) (M : Type) where
  heads : M → Heads log
  staged : M → Heads log
  remote : Heads log

inductive SyncError
  | git
  | casMismatch (ws : NamedWorkspace)
  | ancestry (e : OpLogReadError)
  | pushRejected
  deriving DecidableEq, Repr

variable {M : Type} [DecidableEq M]

namespace Shared

variable (s : Shared log M)

def setHead (m : M) (ws : NamedWorkspace) (oid : Stored log) : Shared log M :=
  { s with heads := Function.update s.heads m ((s.heads m).insert ws oid) }

def setStaged (m : M) (heads : Heads log) : Shared log M :=
  { s with staged := Function.update s.staged m heads }

def setRemote (ws : NamedWorkspace) (oid : Stored log) : Shared log M :=
  { s with remote := s.remote.insert ws oid }

@[simp]
theorem setHead_self (m : M) (ws : NamedWorkspace) (oid : Stored log) :
    (s.setHead m ws oid).heads m = (s.heads m).insert ws oid :=
  Function.update_self ..

theorem setHead_of_ne {m other : M} (h : other ≠ m) (ws : NamedWorkspace) (oid : Stored log) :
    (s.setHead m ws oid).heads other = s.heads other :=
  Function.update_of_ne h ..

omit [DecidableEq M] in
theorem lookup_setRemote (ws ws' : NamedWorkspace) (oid : Stored log) :
    (s.setRemote ws oid).remote.lookup ws' = if ws' = ws then some oid else s.remote.lookup ws' :=
  FiniteMap.lookup_insert ..

@[simp]
theorem setStaged_self (m : M) (heads : Heads log) : (s.setStaged m heads).staged m = heads :=
  Function.update_self ..

end Shared

/-- Calls of git. A head that a pull writes is named together with the two heads that it comes
from. -/
inductive SyncOp (log : OpStore) (M : Type)
  | now
  | readHead (m : M) (ws : NamedWorkspace)
  | writeOperationBlob (op : Operation)
  | writeRefCas (m : M) (ws : NamedWorkspace) (old : Option (Stored log)) (new : Stored log)
  | writeRef (m : M) (ws : NamedWorkspace) (localHead : Option (Stored log))
      (remoteHead new : Stored log)
  | listStaged (m : M)
  | readStaged (m : M) (ws : NamedWorkspace)
  | deleteStaged (m : M) (ws : NamedWorkspace)
  | fetchIntoStaging (m : M)
  | mergeEpochRef (m : M)
  | mergeWsRefs (m : M)
  | hasManifoldRefs (m : M)
  | pushEpoch (m : M)
  | readHeads (m : M)
  | readRemote
  | updateRemote (ws : NamedWorkspace) (old : Option (Stored log)) (new : Stored log)

namespace SyncOp

/-- What a call returns. -/
abbrev Ret : SyncOp log M → Type
  | now => String
  | readHead _ _ => Option (Stored log)
  | writeOperationBlob _ => Stored log
  | writeRefCas .. => Unit
  | writeRef .. => Unit
  | listStaged _ => List NamedWorkspace
  | readStaged _ _ => Option (Stored log)
  | deleteStaged _ _ => Unit
  | fetchIntoStaging _ => Unit
  | mergeEpochRef _ => Unit
  | mergeWsRefs _ => Unit
  | hasManifoldRefs _ => Bool
  | pushEpoch _ => Unit
  | readHeads _ => Heads log
  | readRemote => Heads log
  | updateRemote .. => Unit

/-- A call that changes no head returns a value, or fails. -/
def Reads {α : Type} (s s' : Shared log M) (r : Except SyncError α) (P : α → Prop) : Prop :=
  s' = s ∧ ((∃ a, r = .ok a ∧ P a) ∨ ∃ e, r = .error e)

/-- A call that writes does so, or fails. -/
def Writes (s s' after : Shared log M) (r : Except SyncError Unit) : Prop :=
  (r = .ok () ∧ s' = after) ∨ ((∃ e, r = .error e) ∧ s' = s)

/-- What a call does. The epoch and the workspace states are refs of their own. A fetch that fails
may have written some heads. -/
def exec : (op : SyncOp log M) → Shared log M → Except SyncError op.Ret → Shared log M → Prop
  | now, s, r, s' => Reads s s' r fun _ => True
  | readHead m ws, s, r, s' => Reads s s' r fun head => head = (s.heads m).lookup ws
  | writeOperationBlob op, s, r, s' => Reads s s' r fun oid => log.nodes.lookup oid.1 = some op
  | writeRefCas m ws old new, s, r, s' =>
    Writes s s' (s.setHead m ws new) r ∧ (r = .ok () → (s.heads m).lookup ws = old ∨
      old = none ∧ (s.heads m).lookup ws = some new)
  | writeRef m ws _ _ new, s, r, s' => Writes s s' (s.setHead m ws new) r
  | listStaged m, s, r, s' => Reads s s' r fun wss =>
    wss = inOrderOf NamedWorkspace.asStr NamedWorkspace.asStr_injective (s.staged m).keys
  | readStaged m ws, s, r, s' => Reads s s' r fun head => head = (s.staged m).lookup ws
  | deleteStaged m ws, s, r, s' => Writes s s' (s.setStaged m ((s.staged m).erase ws)) r
  | fetchIntoStaging m, s, r, s' =>
    (r = .ok () ∧ s' = s.setStaged m (s.remote ∪ s.staged m)) ∨
      (∃ e, r = .error e) ∧ ∃ heads, s' = s.setStaged m heads
  | mergeEpochRef _, s, r, s' => Reads s s' r fun _ => True
  | mergeWsRefs _, s, r, s' => Reads s s' r fun _ => True
  | hasManifoldRefs m, s, r, s' => Reads s s' r fun found => found = false → s.heads m = ∅
  | pushEpoch _, s, r, s' => Reads s s' r fun _ => True
  | readHeads m, s, r, s' => Reads s s' r fun heads => heads = s.heads m
  | readRemote, s, r, s' => Reads s s' r fun heads => heads = s.remote
  | updateRemote ws old new, s, r, s' =>
    (s' = s.setRemote ws new ∧ s.remote.lookup ws = old ∧ (r = .ok () ∨ ∃ e, r = .error e)) ∨
      (∃ e, r = .error e) ∧ s' = s

end SyncOp

/-! ### Programs -/

/-- Programs of machines that sync. -/
abbrev SyncProg (log : OpStore) (M : Type) :=
  Fallible SyncError (SyncOp log M) SyncOp.Ret

/-- Read the head, store an operation on top of it and move the head to it. -/
def append (m : M) (ws : NamedWorkspace) (appender : Appender) : SyncProg log M Unit := do
  let head ← attempt (SyncOp.readHead m ws)
  let newOid ← attempt (SyncOp.writeOperationBlob (appender.operation ws (head.map (·.1))))
  match head with
  | some old => attempt (SyncOp.writeRefCas m ws (some old) newOid)
  | none =>
    match ← asOption (attempt (SyncOp.readHead m ws)) with
    | some (some _) => throw (.casMismatch ws)
    | _ => attempt (SyncOp.writeRefCas m ws none newOid)

/-- Delete heads that were fetched; what cannot be deleted stays. -/
def deleteAllStaged (m : M) : List NamedWorkspace → SyncProg log M Unit
  | [] => pure ()
  | ws :: wss => do
    let _ ← asOption (attempt (SyncOp.deleteStaged m ws))
    deleteAllStaged m wss

def cleanupStaging (m : M) : SyncProg log M Unit := do
  let staged ← asOption (attempt (SyncOp.listStaged m))
  deleteAllStaged m (staged.getD [])

/-- Store an operation that joins two heads, and write the head. -/
def createTransportMergeOp (m : M) (ws : NamedWorkspace) (localHead remoteHead : Stored log) :
    SyncProg log M Unit := do
  let timestamp ← attempt SyncOp.now
  let mergeOid ← attempt (SyncOp.writeOperationBlob
    (transportMergeOp ws timestamp localHead.1 remoteHead.1))
  attempt (SyncOp.writeRef m ws (some localHead) remoteHead mergeOid)

/-- Merge one fetched head; `none` if it is not there any more. -/
def mergeHead (m : M) (ws : NamedWorkspace) : SyncProg log M (Option RefMergeResult) := do
  match ← attempt (SyncOp.readStaged m ws) with
  | none => return none
  | some remoteHead =>
    match validateRemoteOpBlob log.nodes remoteHead.1 with
    | .error reason => return some (.securityRejected reason)
    | .ok () =>
      match ← attempt (SyncOp.readHead m ws) with
      | none =>
        attempt (SyncOp.writeRef m ws none remoteHead remoteHead)
        return some .newFromRemote
      | some localHead =>
        if localHead = remoteHead then return some .upToDate
        else
          match oplogAncestryRelation log.nodes localHead.1 remoteHead.1 with
          | .error e => throw (.ancestry e)
          | .ok .localAheadOrEqual => return some .localAhead
          | .ok .remoteAhead =>
            attempt (SyncOp.writeRef m ws (some localHead) remoteHead remoteHead)
            return some .fastForward
          | .ok .diverged =>
            createTransportMergeOp m ws localHead remoteHead
            return some .merged

def mergeHeadRefs (m : M) :
    List NamedWorkspace → SyncProg log M (List (NamedWorkspace × Option RefMergeResult))
  | [] => pure []
  | ws :: wss => do
    let result ← mergeHead m ws
    let results ← mergeHeadRefs m wss
    return (ws, result) :: results

def pull (m : M) : SyncProg log M (List (NamedWorkspace × Option RefMergeResult)) := do
  cleanupStaging m
  attempt (SyncOp.fetchIntoStaging m)
  attempt (SyncOp.mergeEpochRef m)
  let wss ← attempt (SyncOp.listStaged m)
  let results ← mergeHeadRefs m wss
  attempt (SyncOp.mergeWsRefs m)
  cleanupStaging m
  return results

/-- Push heads by force. The remote only checks that its head is the one it has shown. A head that
is rejected does not stop the others. -/
def pushHeads (heads advertised : Heads log) : List NamedWorkspace → SyncProg log M Unit
  | [] => pure ()
  | ws :: wss =>
    match heads.lookup ws with
    | none => pushHeads heads advertised wss
    | some new =>
      if advertised.lookup ws = some new then pushHeads heads advertised wss
      else do
        let pushed ← asOption (attempt (SyncOp.updateRemote ws (advertised.lookup ws) new))
        pushHeads heads advertised wss
        if pushed.isNone then throw .pushRejected

def push (m : M) : SyncProg log M Unit := do
  cleanupStaging m
  if ← attempt (SyncOp.hasManifoldRefs m) then
    attempt (SyncOp.pushEpoch m)
    let heads ← attempt (SyncOp.readHeads m)
    let advertised ← attempt SyncOp.readRemote
    pushHeads heads advertised
      (inOrderOf NamedWorkspace.asStr NamedWorkspace.asStr_injective heads.keys)

/-- What a process does on a machine. -/
inductive Task (M : Type)
  | append (m : M) (ws : NamedWorkspace) (appender : Appender)
  | pull (m : M)
  | push (m : M)

def Task.program : Task M → SyncProg log M Unit
  | append m ws appender => ManifoldSync.append m ws appender
  | pull m => do
    let _ ← ManifoldSync.pull m
  | push m => ManifoldSync.push m

/-- Any number of processes before they have started. -/
def pool {ι : Type} (tasks : ι → Task M) (start : Shared log M) :
    Pool (SyncOp log M) (fun op => Except SyncError op.Ret) (fun _ : ι => Except SyncError Unit)
      (Shared log M) :=
  ⟨fun i => (tasks i).program.run, start⟩

/-! ### What a call may do -/

/-- What could be reached from a head can still be reached from it. -/
structure Keeps (s s' : Shared log M) : Prop where
  machine : ∀ m, Below (s.heads m) (s'.heads m)
  remote : Below s.remote s'.remote

/-- A pull writes a head only over one that it has compared, that the fetched head continues or
that is written already, and the remote head is overwritten only by one that continues it. -/
def SyncOp.Careful : SyncOp log M → Shared log M → Prop
  | writeRef m ws localHead remoteHead new, s => ∀ head, (s.heads m).lookup ws = some head →
      (∃ compared, localHead = some compared ∧ log.IsAncestor head compared) ∨
        log.IsAncestor head remoteHead ∨ head = new
  | updateRemote ws old new, s => s.remote.lookup ws = old →
      ∀ head, old = some head → log.IsAncestor head new
  | _, _ => True

section Keeps

variable {s s' s'' : Shared log M} {m : M} {ws : NamedWorkspace} {oid : Stored log}

omit [DecidableEq M] in
theorem Keeps.refl (s : Shared log M) : Keeps s s := ⟨fun _ => .refl _, .refl _⟩

omit [DecidableEq M] in
theorem Keeps.trans (h : Keeps s s') (h' : Keeps s' s'') : Keeps s s'' :=
  ⟨fun m => (h.machine m).trans (h'.machine m), h.remote.trans h'.remote⟩

theorem keeps_setHead (h : ∀ head, (s.heads m).lookup ws = some head → log.IsAncestor head oid) :
    Keeps s (s.setHead m ws oid) := by
  refine ⟨fun other => ?_, .refl _⟩
  by_cases heq : other = m
  · subst heq
    rw [Shared.setHead_self]
    exact below_insert h
  · rw [Shared.setHead_of_ne _ heq]
    exact .refl _

theorem keeps_setStaged (heads : Heads log) : Keeps s (s.setStaged m heads) :=
  ⟨fun _ => .refl _, .refl _⟩

omit [DecidableEq M] in
theorem keeps_setRemote (h : ∀ head, s.remote.lookup ws = some head → log.IsAncestor head oid) :
    Keeps s (s.setRemote ws oid) :=
  ⟨fun _ => .refl _, below_insert h⟩

omit [DecidableEq M] in
theorem SyncOp.Reads.keeps {α : Type} {r : Except SyncError α} {P : α → Prop}
    (h : SyncOp.Reads s s' r P) : Keeps s s' := by
  obtain ⟨rfl, -⟩ := h
  exact .refl _

omit [DecidableEq M] in
theorem SyncOp.Writes.keeps {after : Shared log M} {r : Except SyncError Unit}
    (h : SyncOp.Writes s s' after r) (hafter : r = .ok () → Keeps s after) : Keeps s s' := by
  rcases h with ⟨hr, rfl⟩ | ⟨-, rfl⟩
  · exact hafter hr
  · exact .refl _

/-- What is known of the heads that a call is about. -/
def SyncOp.Known : SyncOp log M → Prop
  | writeRefCas _ _ old new => ∀ head, old = some head → log.IsAncestor head new
  | writeRef _ _ localHead remoteHead new =>
    (∀ head, localHead = some head → log.IsAncestor head new) ∧ log.IsAncestor remoteHead new
  | _ => True

/-- The step lemma: a careful call loses no operation. -/
theorem SyncOp.exec_keeps {op : SyncOp log M} {r : Except SyncError op.Ret} (hknown : op.Known)
    (hcareful : op.Careful s) (h : op.exec s r s') : Keeps s s' := by
  cases op with
  | now => exact Reads.keeps h
  | readHead m ws => exact Reads.keeps h
  | writeOperationBlob op => exact Reads.keeps h
  | writeRefCas m ws old new =>
    obtain ⟨hwrites, hmatches⟩ := h
    refine hwrites.keeps fun hr => keeps_setHead fun head hhead => ?_
    rcases hmatches hr with hold | ⟨-, hnew⟩
    · exact hknown head (hold.symm.trans hhead)
    · rw [hhead] at hnew
      rw [Option.some.inj hnew]
      exact .refl _
  | writeRef m ws localHead remoteHead new =>
    refine Writes.keeps h fun _ => keeps_setHead fun head hhead => ?_
    rcases hcareful head hhead with ⟨compared, hcompared, hanc⟩ | hanc | rfl
    · exact hanc.trans (hknown.1 compared hcompared)
    · exact hanc.trans hknown.2
    · exact .refl _
  | listStaged m => exact Reads.keeps h
  | readStaged m ws => exact Reads.keeps h
  | deleteStaged m ws => exact Writes.keeps h fun _ => keeps_setStaged _
  | fetchIntoStaging m =>
    rcases h with ⟨-, rfl⟩ | ⟨-, heads, rfl⟩
    · exact keeps_setStaged _
    · exact keeps_setStaged _
  | mergeEpochRef m => exact Reads.keeps h
  | mergeWsRefs m => exact Reads.keeps h
  | hasManifoldRefs m => exact Reads.keeps h
  | pushEpoch m => exact Reads.keeps h
  | readHeads m => exact Reads.keeps h
  | readRemote => exact Reads.keeps h
  | updateRemote ws old new =>
    rcases h with ⟨rfl, hold, -⟩ | ⟨-, rfl⟩
    · exact keeps_setRemote fun head hhead => hcareful hold head (hold.symm.trans hhead)
    · exact .refl _

end Keeps

/-! ### Careful programs -/

/-- The calls that are careful. -/
def carefulExec (op : SyncOp log M) (s : Shared log M) (r : Except SyncError op.Ret)
    (s' : Shared log M) : Prop :=
  op.exec s r s' ∧ op.Careful s

/-- All steps of the program lose no operation, whatever the others do. -/
def Safe {α : Type} (p : SyncProg log M α) : Prop :=
  Triple carefulExec (fun _ _ => True) Keeps (fun _ => True) p (fun _ _ => True) fun _ => True

section Safe

variable {α β : Type} {m : M} {ws : NamedWorkspace}

omit [DecidableEq M] in
theorem stable_const (c : Prop) :
    Stable (fun _ _ : Shared log M => True) fun _ => c := fun _ _ _ h => h

theorem safe_pure (a : α) : Safe (pure a : SyncProg log M α) :=
  triple_pure (stable_const _) fun _ h => h

theorem safe_throw (e : SyncError) : Safe (throw e : SyncProg log M α) :=
  triple_throw (stable_const _) fun _ h => h

theorem safe_bind {p : SyncProg log M α} {f : α → SyncProg log M β} (hp : Safe p)
    (hf : ∀ a, Safe (f a)) : Safe (p >>= f) :=
  triple_bind (stable_const _) hp hf

theorem safe_attempt {op : SyncOp log M} (hknown : op.Known) : Safe (attempt op) := by
  refine triple_attempt (stable_const _) (fun _ => stable_const _) (stable_const _) ?_
  rintro s r s' - ⟨hexec, hcareful⟩
  refine ⟨SyncOp.exec_keeps hknown hcareful hexec, ?_⟩
  cases r <;> trivial

/-- What follows a call may rely on what the call returned. -/
theorem safe_call {op : SyncOp log M} {f : op.Ret → SyncProg log M β} (hknown : op.Known)
    (hf : ∀ a, (∃ s s', op.exec s (.ok a) s') → Safe (f a)) : Safe (attempt op >>= f) := by
  refine triple_bind (R := fun a _ => ∃ s s', op.exec s (.ok a) s') (stable_const _) ?_ fun a => ?_
  · refine triple_attempt (stable_const _) (fun _ => stable_const _) (stable_const _) ?_
    rintro s r s' - ⟨hexec, hcareful⟩
    refine ⟨SyncOp.exec_keeps hknown hcareful hexec, ?_⟩
    cases r with
    | ok a => exact ⟨s, s', hexec⟩
    | error e => trivial
  · refine (triple_of_fact (P := fun _ => True) (hf a)).of_imp (stable_const _) ?_
    exact fun _ h => ⟨h, trivial⟩

theorem safe_asOption {p : SyncProg log M α} (hp : Safe p) : Safe (asOption p) := by
  have h : Triple carefulExec (fun _ _ => True) Keeps (fun _ => True) (asOption p)
      (fun o _ => o.elim True fun _ => True) fun _ => True :=
    triple_asOption (fun _ => stable_const _) (stable_const _) hp
  exact Meets.imp h fun r _ _ => by cases r <;> trivial

theorem safe_deleteAllStaged (wss : List NamedWorkspace) :
    Safe (deleteAllStaged m wss : SyncProg log M Unit) := by
  induction wss with
  | nil => exact safe_pure _
  | cons ws wss ih => exact safe_bind (safe_asOption (safe_attempt trivial)) fun _ => ih

theorem safe_cleanupStaging : Safe (cleanupStaging m : SyncProg log M Unit) :=
  safe_bind (safe_asOption (safe_attempt trivial)) fun _ => safe_deleteAllStaged _

/-- A blob that was written is the operation. -/
theorem lookup_of_writeOperationBlob {op : Operation} {oid : Stored log}
    (h : ∃ s s', (SyncOp.writeOperationBlob (M := M) op).exec s (.ok oid) s') :
    log.nodes.lookup oid.1 = some op := by
  obtain ⟨s, s', -, ⟨oid', heq, hop⟩ | ⟨e, he⟩⟩ := h
  · rwa [Except.ok.inj heq]
  · cases he

theorem safe_append (appender : Appender) :
    Safe (append m ws appender : SyncProg log M Unit) := by
  refine safe_bind (safe_attempt trivial) fun head => safe_call trivial fun newOid hwritten => ?_
  have hop := lookup_of_writeOperationBlob hwritten
  have hknown : (SyncOp.writeRefCas m ws head newOid).Known := by
    rintro old rfl
    exact NodeStore.ParentOf.isAncestor ⟨_, hop, List.mem_singleton_self _⟩
  cases head with
  | some old => exact safe_attempt hknown
  | none =>
    refine safe_bind (safe_asOption (safe_attempt trivial)) fun again => ?_
    rcases again with - | - | other
    · exact safe_attempt hknown
    · exact safe_attempt hknown
    · exact safe_throw _

theorem safe_createTransportMergeOp (localHead remoteHead : Stored log) :
    Safe (createTransportMergeOp m ws localHead remoteHead) := by
  refine safe_bind (safe_attempt trivial) fun timestamp => ?_
  refine safe_call trivial fun mergeOid hwritten => ?_
  have hop := lookup_of_writeOperationBlob hwritten
  refine safe_attempt ⟨?_, ?_⟩
  · rintro head heq
    obtain rfl := Option.some.inj heq
    exact NodeStore.ParentOf.isAncestor ⟨_, hop, List.mem_cons_self⟩
  · exact NodeStore.ParentOf.isAncestor ⟨_, hop, List.mem_cons_of_mem _ (List.mem_singleton_self _)⟩

theorem within_nodes : Within log.nodes log := fun _ _ h => h

theorem safe_mergeHead :
    Safe (mergeHead m ws : SyncProg log M (Option RefMergeResult)) := by
  refine safe_bind (safe_attempt trivial) fun staged => ?_
  cases staged with
  | none => exact safe_pure _
  | some remoteHead =>
    cases hvalid : validateRemoteOpBlob log.nodes remoteHead.1 with
    | error reason =>
      simp only [hvalid]
      exact safe_pure _
    | ok u =>
      simp only [hvalid]
      refine safe_bind (safe_attempt trivial) fun head => ?_
      cases head with
      | none =>
        refine safe_bind (safe_attempt ⟨?_, .refl _⟩) fun _ => safe_pure _
        exact fun _ h => by cases h
      | some localHead =>
        dsimp only
        split_ifs
        · exact safe_pure _
        · cases hrelation : oplogAncestryRelation log.nodes localHead.1 remoteHead.1 with
          | error e => exact safe_throw _
          | ok relation =>
            cases relation with
            | localAheadOrEqual => exact safe_pure _
            | remoteAhead =>
              have hanc := isAncestor_of_remoteAhead within_nodes hrelation
              refine safe_bind (safe_attempt ⟨?_, .refl _⟩) fun _ => safe_pure _
              rintro head heq
              obtain rfl := Option.some.inj heq
              exact hanc
            | diverged =>
              exact safe_bind (safe_createTransportMergeOp localHead remoteHead) fun _ =>
                safe_pure _

theorem safe_mergeHeadRefs (wss : List NamedWorkspace) :
    Safe (mergeHeadRefs m wss :
      SyncProg log M (List (NamedWorkspace × Option RefMergeResult))) := by
  induction wss with
  | nil => exact safe_pure _
  | cons ws wss ih =>
    exact safe_bind safe_mergeHead fun _ => safe_bind ih fun _ => safe_pure _

theorem safe_pull :
    Safe (pull m : SyncProg log M (List (NamedWorkspace × Option RefMergeResult))) :=
  safe_bind safe_cleanupStaging fun _ => safe_bind (safe_attempt trivial) fun _ =>
    safe_bind (safe_attempt trivial) fun _ => safe_bind (safe_attempt trivial) fun wss =>
      safe_bind (safe_mergeHeadRefs wss) fun _ => safe_bind (safe_attempt trivial) fun _ =>
        safe_bind safe_cleanupStaging fun _ => safe_pure _

theorem safe_pushHeads (heads advertised : Heads log) (wss : List NamedWorkspace) :
    Safe (pushHeads (M := M) heads advertised wss) := by
  induction wss with
  | nil => exact safe_pure _
  | cons ws wss ih =>
    rw [pushHeads]
    cases heads.lookup ws with
    | none => exact ih
    | some new =>
      dsimp only
      split_ifs
      · exact ih
      · refine safe_bind (safe_asOption (safe_attempt trivial)) fun pushed => ?_
        refine safe_bind ih fun _ => ?_
        split_ifs
        · exact safe_throw _
        · exact safe_pure _

theorem safe_push : Safe (push m : SyncProg log M Unit) := by
  refine safe_bind safe_cleanupStaging fun _ => safe_bind (safe_attempt trivial) fun found => ?_
  cases found with
  | false => exact safe_pure _
  | true =>
    exact safe_bind (safe_attempt trivial) fun _ => safe_bind (safe_attempt trivial) fun heads =>
      safe_bind (safe_attempt trivial) fun advertised => safe_pushHeads heads advertised _

theorem safe_program (task : Task M) : Safe (task.program : SyncProg log M Unit) := by
  cases task with
  | append m ws appender => exact safe_append appender
  | pull m => exact safe_bind safe_pull fun _ => safe_pure _
  | push m => exact safe_push

end Safe

/-! ### Rounds -/

/-- The calls that do not fail. -/
def settledExec (op : SyncOp log M) (s : Shared log M) (r : Except SyncError op.Ret)
    (s' : Shared log M) : Prop :=
  op.exec s r s' ∧ ∃ a, r = .ok a

/-- The machines pull and push, one after another, and no call fails. -/
inductive Round : List M → Shared log M → Shared log M → Prop
  | nil (s : Shared log M) : Round [] s s
  | turn {m : M} {ms : List M} {s pulled pushed s' : Shared log M}
      {results : List (NamedWorkspace × Option RefMergeResult)}
      (hpull : Returns settledExec (pull m) s results pulled)
      (hpush : Returns settledExec (push m) pulled () pushed) (h : Round ms pushed s') :
      Round (m :: ms) s s'

section Settled

variable {s s' : Shared log M} {m : M} {ws : NamedWorkspace} {wss : List NamedWorkspace}

theorem returns_call {op : SyncOp log M} {a : op.Ret} :
    Returns settledExec (attempt op) s a s' ↔ op.exec s (.ok a) s' :=
  returns_attempt.trans (and_iff_left ⟨a, rfl⟩)

theorem returns_asOption_call {op : SyncOp log M} {o : Option op.Ret} :
    Returns settledExec (asOption (attempt op)) s o s' ↔
      ∃ a, o = some a ∧ op.exec s (.ok a) s' := by
  rw [returns_asOption]
  constructor
  · rintro ⟨r, hrun, rfl⟩
    obtain ⟨hexec, a, rfl⟩ := runs_attempt_done.mp hrun
    exact ⟨a, rfl, hexec⟩
  · rintro ⟨a, rfl, hexec⟩
    exact ⟨.ok a, runs_attempt_done.mpr ⟨hexec, a, rfl⟩, rfl⟩

omit [DecidableEq M] in
theorem SyncOp.reads_ok {α : Type} {a : α} {P : α → Prop} :
    SyncOp.Reads s s' (.ok a) P ↔ s' = s ∧ P a := by
  simp [SyncOp.Reads]

omit [DecidableEq M] in
theorem SyncOp.writes_ok {after : Shared log M} :
    SyncOp.Writes s s' after (.ok ()) ↔ s' = after := by
  simp [SyncOp.Writes]

/-- All heads but the fetched ones are the same, and the fetched ones are these. -/
structure Restaged (m : M) (staged : NamedWorkspace → Option (Stored log)) (s s' : Shared log M) :
    Prop where
  heads : s'.heads = s.heads
  remote : s'.remote = s.remote
  staged : ∀ ws, (s'.staged m).lookup ws = staged ws

theorem restaged_deleteAllStaged {u : Unit}
    (h : Returns settledExec (deleteAllStaged m wss) s u s') :
    Restaged m (fun ws => if ws ∈ wss then none else (s.staged m).lookup ws) s s' := by
  induction wss generalizing s with
  | nil =>
    obtain ⟨-, rfl⟩ := returns_pure.mp h
    exact ⟨rfl, rfl, fun ws => by simp⟩
  | cons ws wss ih =>
    obtain ⟨o, s₁, hdelete, hrest⟩ := returns_bind.mp h
    obtain ⟨u, -, hexec⟩ := returns_asOption_call.mp hdelete
    obtain rfl := SyncOp.writes_ok.mp hexec
    obtain ⟨hheads, hremote, hstaged⟩ := ih hrest
    refine ⟨hheads, hremote, fun other => ?_⟩
    rw [hstaged, Shared.setStaged_self, FiniteMap.lookup_erase]
    by_cases hother : other ∈ wss
    · simp [hother]
    · simp [hother]

theorem restaged_cleanupStaging {u : Unit} (h : Returns settledExec (cleanupStaging m) s u s') :
    Restaged m (fun _ => none) s s' := by
  obtain ⟨o, s₁, hlist, hrest⟩ := returns_bind.mp h
  obtain ⟨wss, rfl, hexec⟩ := returns_asOption_call.mp hlist
  obtain ⟨rfl, rfl⟩ := SyncOp.reads_ok.mp hexec
  obtain ⟨hheads, hremote, hstaged⟩ := restaged_deleteAllStaged hrest
  refine ⟨hheads, hremote, fun ws => (hstaged ws).trans ?_⟩
  split_ifs with hws
  · rfl
  · rw [Option.getD_some, mem_inOrderOf, Finmap.mem_keys] at hws
    exact Finmap.lookup_eq_none.mpr hws

/-! ### Pulls and pushes that do not fail -/

/-- How a head and a fetched one are joined. -/
structure Joined (localHead : Option (Stored log)) (remoteHead top : Stored log) : Prop where
  ofLocal : ∀ head, localHead = some head → log.IsAncestor head top
  ofRemote : log.IsAncestor remoteHead top
  eq_remote : (∀ head, localHead = some head → log.IsAncestor head remoteHead) → top = remoteHead

theorem relation_cases (localHead remoteHead : Stored log) :
    (oplogAncestryRelation log.nodes localHead remoteHead = .ok .remoteAhead ∧
        log.IsAncestor localHead remoteHead) ∨
      (oplogAncestryRelation log.nodes localHead remoteHead = .ok .localAheadOrEqual ∧
        log.IsAncestor remoteHead localHead ∧ ¬ log.IsAncestor localHead remoteHead) ∨
      (oplogAncestryRelation log.nodes localHead remoteHead = .ok .diverged ∧
        ¬ log.IsAncestor localHead remoteHead) := by
  have hwhole (head : Stored log) : Whole log log.nodes head := fun oid hanc => hanc.mem head.2
  rcases @oplogIsAncestor_eq_ok log log.nodes localHead.1 remoteHead.1 within_nodes
    (hwhole remoteHead) with ⟨hok, hanc⟩ | ⟨hok, hnot⟩
  · exact .inl ⟨by rw [oplogAncestryRelation, hok]; rfl, hanc⟩
  · rcases @oplogIsAncestor_eq_ok log log.nodes remoteHead.1 localHead.1 within_nodes
      (hwhole localHead) with ⟨hok', hanc'⟩ | ⟨hok', -⟩
    · refine .inr (.inl ⟨ExceptRun.bind_eq_ok.mpr ⟨false, hok, ?_⟩, hanc', hnot⟩)
      exact ExceptRun.bind_eq_ok.mpr ⟨true, hok', rfl⟩
    · refine .inr (.inr ⟨ExceptRun.bind_eq_ok.mpr ⟨false, hok, ?_⟩, hnot⟩)
      exact ExceptRun.bind_eq_ok.mpr ⟨false, hok', rfl⟩

/-- One head of one machine may have changed, and the fetched ones have not. -/
structure Frame (m : M) (ws : NamedWorkspace) (s s' : Shared log M) : Prop where
  staged : s'.staged = s.staged
  remote : s'.remote = s.remote
  other : ∀ m', m' ≠ m → s'.heads m' = s.heads m'
  head : ∀ ws', ws' ≠ ws → (s'.heads m).lookup ws' = (s.heads m).lookup ws'

omit [DecidableEq M] in
theorem Frame.refl (s : Shared log M) : Frame m ws s s :=
  ⟨rfl, rfl, fun _ _ => rfl, fun _ _ => rfl⟩

theorem frame_setHead (oid : Stored log) : Frame m ws s (s.setHead m ws oid) := by
  refine ⟨rfl, rfl, fun other h => Shared.setHead_of_ne s h ws oid, fun ws' h => ?_⟩
  rw [Shared.setHead_self, FiniteMap.lookup_insert, if_neg h]

theorem lookup_setHead (oid : Stored log) :
    ((s.setHead m ws oid).heads m).lookup ws = some oid := by
  rw [Shared.setHead_self, FiniteMap.lookup_insert, if_pos rfl]

/-- A head that is written without a failure. -/
theorem returns_writeRef {localHead : Option (Stored log)} {remoteHead new : Stored log} {u : Unit}
    (h : Returns settledExec (attempt (SyncOp.writeRef m ws localHead remoteHead new)) s u s') :
    s' = s.setHead m ws new :=
  SyncOp.writes_ok.mp (returns_call.mp h)

theorem returns_createTransportMergeOp {localHead remoteHead : Stored log} {u : Unit}
    (h : Returns settledExec (createTransportMergeOp m ws localHead remoteHead) s u s') :
    ∃ oid, s' = s.setHead m ws oid ∧ log.IsAncestor localHead oid ∧
      log.IsAncestor remoteHead oid := by
  obtain ⟨timestamp, s₁, hnow, hrest⟩ := returns_bind.mp h
  obtain ⟨rfl, -⟩ := SyncOp.reads_ok.mp (returns_call.mp hnow)
  obtain ⟨oid, s₂, hblob, hwrite⟩ := returns_bind.mp hrest
  obtain ⟨rfl, hop⟩ := SyncOp.reads_ok.mp (returns_call.mp hblob)
  refine ⟨oid, returns_writeRef hwrite, ?_, ?_⟩
  · exact NodeStore.ParentOf.isAncestor ⟨_, hop, List.mem_cons_self⟩
  · exact NodeStore.ParentOf.isAncestor ⟨_, hop, List.mem_cons_of_mem _ (List.mem_singleton_self _)⟩

/-- A fetched head is merged into the head. -/
theorem joined_mergeHead {remoteHead : Stored log} {result : Option RefMergeResult}
    (hstaged : (s.staged m).lookup ws = some remoteHead)
    (h : Returns settledExec (mergeHead m ws) s result s') :
    Frame m ws s s' ∧ ∃ top, (s'.heads m).lookup ws = some top ∧
      Joined ((s.heads m).lookup ws) remoteHead top := by
  have hvalid : validateRemoteOpBlob log.nodes remoteHead.1 = .ok () :=
    validateRemoteOpBlob_of_whole within_nodes fun oid hanc => hanc.mem remoteHead.2
  obtain ⟨staged, s₁, hread, hrest⟩ := returns_bind.mp h
  obtain ⟨rfl, rfl⟩ := SyncOp.reads_ok.mp (returns_call.mp hread)
  rw [hstaged] at hrest
  simp only [hvalid] at hrest
  obtain ⟨head, s₂, hread, hrest⟩ := returns_bind.mp hrest
  obtain ⟨rfl, rfl⟩ := SyncOp.reads_ok.mp (returns_call.mp hread)
  cases hhead : (s₂.heads m).lookup ws with
  | none =>
    simp only [hhead] at hrest
    obtain ⟨u, s₃, hwrite, hrest⟩ := returns_bind.mp hrest
    obtain rfl := returns_writeRef hwrite
    obtain ⟨-, rfl⟩ := returns_pure.mp hrest
    exact ⟨frame_setHead _, remoteHead, lookup_setHead _, by simp, .refl _, fun _ => rfl⟩
  | some localHead =>
    simp only [hhead] at hrest
    split_ifs at hrest with heq
    · obtain ⟨-, rfl⟩ := returns_pure.mp hrest
      subst heq
      refine ⟨.refl _, localHead, hhead, ?_, .refl _, fun _ => rfl⟩
      rintro head heq
      obtain rfl := Option.some.inj heq
      exact .refl _
    · have hlocal {P : Stored log → Prop} (h : P localHead) :
          ∀ head, some localHead = some head → P head := by
        rintro head heq
        exact Option.some.inj heq ▸ h
      rcases relation_cases localHead remoteHead with ⟨hrelation, hanc⟩ |
        ⟨hrelation, hanc, hnot⟩ | ⟨hrelation, hnot⟩
      · simp only [hrelation] at hrest
        obtain ⟨u, s₃, hwrite, hrest⟩ := returns_bind.mp hrest
        obtain rfl := returns_writeRef hwrite
        obtain ⟨-, rfl⟩ := returns_pure.mp hrest
        exact ⟨frame_setHead _, remoteHead, lookup_setHead _, hlocal hanc, .refl _, fun _ => rfl⟩
      · simp only [hrelation] at hrest
        obtain ⟨-, rfl⟩ := returns_pure.mp hrest
        exact ⟨.refl _, localHead, hhead, hlocal (.refl _), hanc,
          fun hall => absurd (hall localHead rfl) hnot⟩
      · simp only [hrelation] at hrest
        obtain ⟨u, s₃, hcreate, hrest⟩ := returns_bind.mp hrest
        obtain ⟨oid, rfl, hanc, hanc'⟩ := returns_createTransportMergeOp hcreate
        obtain ⟨-, rfl⟩ := returns_pure.mp hrest
        exact ⟨frame_setHead _, oid, lookup_setHead _, hlocal hanc, hanc',
          fun hall => absurd (hall localHead rfl) hnot⟩

theorem joined_mergeHeadRefs {results : List (NamedWorkspace × Option RefMergeResult)}
    (hnodup : wss.Nodup) (hstaged : ∀ ws ∈ wss, ws ∈ s.staged m)
    (h : Returns settledExec (mergeHeadRefs m wss) s results s') :
    s'.remote = s.remote ∧ (∀ other, other ≠ m → s'.heads other = s.heads other) ∧
      (∀ ws, ws ∉ wss → (s'.heads m).lookup ws = (s.heads m).lookup ws) ∧
      ∀ ws ∈ wss, ∀ remoteHead, (s.staged m).lookup ws = some remoteHead →
        ∃ top, (s'.heads m).lookup ws = some top ∧
          Joined ((s.heads m).lookup ws) remoteHead top := by
  induction wss generalizing s results with
  | nil =>
    obtain ⟨-, rfl⟩ := returns_pure.mp h
    exact ⟨rfl, fun _ _ => rfl, fun _ _ => rfl, fun ws hws => absurd hws List.not_mem_nil⟩
  | cons ws wss ih =>
    obtain ⟨hnew, hnodup⟩ := List.nodup_cons.mp hnodup
    obtain ⟨result, s₁, hmerge, hrest⟩ := returns_bind.mp h
    obtain ⟨results, s₂, hrefs, hrest⟩ := returns_bind.mp hrest
    obtain ⟨-, rfl⟩ := returns_pure.mp hrest
    obtain ⟨remoteHead, hremoteHead⟩ := Finmap.mem_iff.mp (hstaged ws List.mem_cons_self)
    obtain ⟨hframe, top, htop, hjoined⟩ := joined_mergeHead hremoteHead hmerge
    obtain ⟨hremote, hother, hkept, hmerged⟩ := ih hnodup
      (fun ws' hws' => hframe.staged ▸ hstaged ws' (List.mem_cons_of_mem _ hws')) hrefs
    refine ⟨hremote.trans hframe.remote, fun m' hm' => (hother m' hm').trans (hframe.other m' hm'),
      fun ws' hws' => ?_, fun ws' hws' oid hoid => ?_⟩
    · rw [hkept ws' fun h => hws' (List.mem_cons_of_mem _ h)]
      exact hframe.head ws' fun heq => hws' (heq ▸ List.mem_cons_self)
    · by_cases heq : ws' = ws
      · subst heq
        rw [hremoteHead] at hoid
        obtain rfl := Option.some.inj hoid
        exact ⟨top, (hkept ws' hnew).trans htop, hjoined⟩
      · have hws' := (List.mem_cons.mp hws').resolve_left heq
        rw [← hframe.head ws' heq]
        exact hmerged ws' hws' oid (by rwa [hframe.staged])

/-- The heads after a pull: those that the remote does not have stay, and the others are joined. -/
theorem joined_pull {results : List (NamedWorkspace × Option RefMergeResult)}
    (h : Returns settledExec (pull m) s results s') :
    s'.remote = s.remote ∧ (∀ other, other ≠ m → s'.heads other = s.heads other) ∧
      ∀ ws, (s.remote.lookup ws = none ∧ (s'.heads m).lookup ws = (s.heads m).lookup ws) ∨
        ∃ remoteHead top, s.remote.lookup ws = some remoteHead ∧
          (s'.heads m).lookup ws = some top ∧ Joined ((s.heads m).lookup ws) remoteHead top := by
  obtain ⟨u, s₁, hcleanup, hrest₁⟩ := returns_bind.mp h
  have hclean := restaged_cleanupStaging hcleanup
  obtain ⟨u, s₂, hfetch, hrest₂⟩ := returns_bind.mp hrest₁
  have hfetched : s₂ = s₁.setStaged m (s₁.remote ∪ s₁.staged m) := by
    rcases returns_call.mp hfetch with ⟨-, heq⟩ | ⟨⟨e, he⟩, -⟩
    · exact heq
    · cases he
  subst hfetched
  obtain ⟨u, s₃, hepoch, hrest₃⟩ := returns_bind.mp hrest₂
  obtain ⟨rfl, -⟩ := SyncOp.reads_ok.mp (returns_call.mp hepoch)
  obtain ⟨wss, s₄, hlist, hrest₄⟩ := returns_bind.mp hrest₃
  obtain ⟨rfl, rfl⟩ := SyncOp.reads_ok.mp (returns_call.mp hlist)
  obtain ⟨results, s₅, hrefs, hrest₅⟩ := returns_bind.mp hrest₄
  obtain ⟨u, s₆, hws, hrest₆⟩ := returns_bind.mp hrest₅
  obtain ⟨rfl, -⟩ := SyncOp.reads_ok.mp (returns_call.mp hws)
  obtain ⟨u, s₇, hcleanup', hpure⟩ := returns_bind.mp hrest₆
  obtain ⟨-, rfl⟩ := returns_pure.mp hpure
  have hclean' := restaged_cleanupStaging hcleanup'
  have hlookup (ws : NamedWorkspace) :
      ((s₁.setStaged m (s₁.remote ∪ s₁.staged m)).staged m).lookup ws = s.remote.lookup ws := by
    rw [Shared.setStaged_self, FiniteMap.lookup_union, hclean.staged, Option.or_none, hclean.remote]
  obtain ⟨hremote, hother, hkept, hmerged⟩ := joined_mergeHeadRefs nodup_inOrderOf
    (fun ws hws => Finmap.mem_keys.mp (mem_inOrderOf.mp hws)) hrefs
  rw [hclean'.heads, hclean'.remote, ← hclean.heads, ← hclean.remote]
  refine ⟨hremote, hother, fun ws => ?_⟩
  cases hrem : s₁.remote.lookup ws with
  | none =>
    refine .inl ⟨rfl, hkept ws fun hws => ?_⟩
    have hmem := Finmap.mem_keys.mp (mem_inOrderOf.mp hws)
    rw [← Finmap.lookup_isSome, hlookup, ← hclean.remote, hrem] at hmem
    cases hmem
  | some remoteHead =>
    have hlookup' := (hlookup ws).trans (hclean.remote ▸ hrem)
    obtain ⟨top, htop, hjoined⟩ := hmerged ws
      (mem_inOrderOf.mpr (Finmap.mem_keys.mpr (FiniteMap.mem_of_lookup hlookup'))) remoteHead
      hlookup'
    exact .inr ⟨remoteHead, top, rfl, htop, hjoined⟩

/-- A machine pulled: its heads continue its own and those of the remote. -/
structure Pulled (m : M) (s s' : Shared log M) : Prop where
  remote : s'.remote = s.remote
  other : ∀ m', m' ≠ m → s'.heads m' = s.heads m'
  own : Below (s.heads m) (s'.heads m)
  merged : Below s.remote (s'.heads m)
  adopted : Below (s.heads m) s.remote → s'.heads m = s.remote

theorem pulled_of_returns {results : List (NamedWorkspace × Option RefMergeResult)}
    (h : Returns settledExec (pull m) s results s') : Pulled m s s' := by
  obtain ⟨hremote, hother, hcases⟩ := joined_pull h
  refine ⟨hremote, hother, ?_, ?_, fun hbelow => ?_⟩
  · refine below_iff.mpr fun ws head hhead => ?_
    rcases hcases ws with ⟨-, hsame⟩ | ⟨remoteHead, top, -, htop, hjoined⟩
    · exact ⟨head, hsame.trans hhead, .refl _⟩
    · exact ⟨top, htop, hjoined.ofLocal head hhead⟩
  · refine below_iff.mpr fun ws head hhead => ?_
    rcases hcases ws with ⟨hnone, -⟩ | ⟨remoteHead, top, hrem, htop, hjoined⟩
    · rw [hnone] at hhead
      cases hhead
    · rw [hrem] at hhead
      obtain rfl := Option.some.inj hhead
      exact ⟨top, htop, hjoined.ofRemote⟩
  · refine Finmap.ext_lookup fun ws => ?_
    rcases hcases ws with ⟨hnone, hsame⟩ | ⟨remoteHead, top, hrem, htop, hjoined⟩
    · rw [hsame, hnone]
      by_contra hne
      obtain ⟨head, hhead⟩ := Option.ne_none_iff_exists'.mp hne
      obtain ⟨top, htop, -⟩ := below_iff.mp hbelow ws head hhead
      rw [hnone] at htop
      cases htop
    · rw [htop, hrem]
      refine congrArg some (hjoined.eq_remote fun head hhead => ?_)
      obtain ⟨top', htop', hanc⟩ := below_iff.mp hbelow ws head hhead
      rw [hrem] at htop'
      rwa [Option.some.inj htop']

/-- Heads that are pushed without a failure arrive, and the others stay. -/
theorem pushed_pushHeads {heads advertised : Heads log} {u : Unit}
    (hshown : ∀ ws, s.remote.lookup ws = advertised.lookup ws ∨
      s.remote.lookup ws = heads.lookup ws)
    (h : Returns settledExec (pushHeads heads advertised wss) s u s') :
    s'.heads = s.heads ∧
      (∀ ws, s'.remote.lookup ws = s.remote.lookup ws ∨
        s'.remote.lookup ws = heads.lookup ws) ∧
      ∀ ws ∈ wss, ∀ head, heads.lookup ws = some head → s'.remote.lookup ws = some head := by
  induction wss generalizing s u with
  | nil =>
    obtain ⟨-, rfl⟩ := returns_pure.mp h
    exact ⟨rfl, fun _ => .inl rfl, fun ws hws => absurd hws List.not_mem_nil⟩
  | cons ws wss ih =>
    -- Once the first head has arrived it stays.
    have hskip (s₁ : Shared log M) (u : Unit) (hheads : s₁.heads = s.heads)
        (hkept : ∀ ws, s₁.remote.lookup ws = s.remote.lookup ws ∨
          s₁.remote.lookup ws = heads.lookup ws)
        (hfirst : ∀ head, heads.lookup ws = some head → s₁.remote.lookup ws = some head)
        (hrest : Returns settledExec (pushHeads heads advertised wss) s₁ u s') :
        s'.heads = s.heads ∧
          (∀ ws, s'.remote.lookup ws = s.remote.lookup ws ∨
            s'.remote.lookup ws = heads.lookup ws) ∧
          ∀ ws' ∈ ws :: wss, ∀ head, heads.lookup ws' = some head →
            s'.remote.lookup ws' = some head := by
      have hshown₁ (ws : NamedWorkspace) : s₁.remote.lookup ws = advertised.lookup ws ∨
          s₁.remote.lookup ws = heads.lookup ws := by
        rcases hkept ws with heq | heq
        · rw [heq]
          exact hshown ws
        · exact .inr heq
      obtain ⟨hheads', hkept', harrived⟩ := ih hshown₁ hrest
      refine ⟨hheads'.trans hheads, fun ws' => ?_, fun ws' hws' head hhead => ?_⟩
      · rcases hkept' ws' with heq | heq
        · rw [heq]
          exact hkept ws'
        · exact .inr heq
      · rcases List.mem_cons.mp hws' with rfl | hws'
        · rcases hkept' ws' with heq | heq
          · exact heq.trans (hfirst head hhead)
          · exact heq.trans hhead
        · exact harrived ws' hws' head hhead
    rw [pushHeads] at h
    cases hnew : heads.lookup ws with
    | none =>
      rw [hnew] at h
      refine hskip s u rfl (fun _ => .inl rfl) (fun head hhead => ?_) h
      rw [hnew] at hhead
      cases hhead
    | some new =>
      simp only [hnew] at h
      split_ifs at h with heq
      · refine hskip s u rfl (fun _ => .inl rfl) (fun head hhead => ?_) h
        rw [← hhead, hnew]
        rcases hshown ws with hshown | hshown
        · exact hshown.trans heq
        · exact hshown.trans hnew
      · obtain ⟨pushed, s₁, hupdate, hrest⟩ := returns_bind.mp h
        obtain ⟨u₁, rfl, hexec⟩ := returns_asOption_call.mp hupdate
        obtain ⟨u₂, s₂, hpush, hthrow⟩ := returns_bind.mp hrest
        obtain ⟨-, rfl⟩ := returns_pure.mp hthrow
        rcases hexec with ⟨rfl, -, -⟩ | ⟨⟨e, he⟩, -⟩
        · refine hskip (s.setRemote ws new) u₂ rfl (fun ws' => ?_) (fun head hhead => ?_) hpush
          · rw [Shared.lookup_setRemote]
            split_ifs with hws
            · exact .inr (hws ▸ hnew.symm)
            · exact .inl rfl
          · rw [← hhead, hnew, Shared.lookup_setRemote, if_pos rfl]
        · cases he

/-- A push without a failure onto heads that the machine's continue makes them its own. -/
theorem remote_of_push {u : Unit} (hbelow : Below s.remote (s.heads m))
    (h : Returns settledExec (push m) s u s') : s'.heads = s.heads ∧ s'.remote = s.heads m := by
  obtain ⟨u₁, s₁, hcleanup, hrest₁⟩ := returns_bind.mp h
  have hclean := restaged_cleanupStaging hcleanup
  obtain ⟨found, s₂, hfound, hrest₂⟩ := returns_bind.mp hrest₁
  obtain ⟨rfl, hempty⟩ := SyncOp.reads_ok.mp (returns_call.mp hfound)
  cases found with
  | false =>
    obtain ⟨-, rfl⟩ := returns_pure.mp hrest₂
    have hheads : s.heads m = ∅ := hclean.heads ▸ hempty rfl
    refine ⟨hclean.heads, hclean.remote.trans (hbelow.antisymm ?_)⟩
    rw [hheads]
    exact below_iff.mpr fun ws head hhead => by simp at hhead
  | true =>
    obtain ⟨u₂, s₃, hepoch, hrest₃⟩ := returns_bind.mp hrest₂
    obtain ⟨rfl, -⟩ := SyncOp.reads_ok.mp (returns_call.mp hepoch)
    obtain ⟨heads, s₄, hread, hrest₄⟩ := returns_bind.mp hrest₃
    obtain ⟨rfl, rfl⟩ := SyncOp.reads_ok.mp (returns_call.mp hread)
    obtain ⟨advertised, s₅, hremote, hpush⟩ := returns_bind.mp hrest₄
    obtain ⟨rfl, rfl⟩ := SyncOp.reads_ok.mp (returns_call.mp hremote)
    obtain ⟨hheads, hkept, harrived⟩ := pushed_pushHeads (fun _ => .inl rfl) hpush
    refine ⟨hheads.trans hclean.heads, Finmap.ext_lookup fun ws => ?_⟩
    rw [← hclean.heads, ← hclean.remote] at *
    cases hhead : (s₅.heads m).lookup ws with
    | some head =>
      exact harrived ws
        (mem_inOrderOf.mpr (Finmap.mem_keys.mpr (FiniteMap.mem_of_lookup hhead))) head hhead
    | none =>
      rcases hkept ws with heq | heq
      · rw [heq]
        by_contra hne
        obtain ⟨head, hremote⟩ := Option.ne_none_iff_exists'.mp hne
        obtain ⟨top, htop, -⟩ := below_iff.mp hbelow ws head hremote
        rw [hhead] at htop
        cases htop
      · exact heq.trans hhead

/-- After a round all heads of the machines that took part are below those of the remote. -/
theorem Round.heads_below {ms : List M} (h : Round ms s s') :
    Below s.remote s'.remote ∧ (∀ m ∈ ms, Below (s'.heads m) s'.remote) ∧
      ∀ m, m ∉ ms → s'.heads m = s.heads m := by
  induction h with
  | nil => exact ⟨.refl _, fun m hm => absurd hm List.not_mem_nil, fun _ _ => rfl⟩
  | @turn m ms s pulled pushed s' results hpull hpush hrest ih =>
    have hpulled := pulled_of_returns hpull
    obtain ⟨hheads, hremote⟩ := remote_of_push (hpulled.remote ▸ hpulled.merged) hpush
    obtain ⟨hgrown, hbelow, hkept⟩ := ih
    rw [hremote] at hgrown
    refine ⟨hpulled.merged.trans hgrown, fun m' hm' => ?_, fun m' hm' => ?_⟩
    · by_cases hmem : m' ∈ ms
      · exact hbelow m' hmem
      · obtain rfl := (List.mem_cons.mp hm').resolve_right hmem
        rw [hkept m' hmem, hheads]
        exact hgrown
    · have hne := List.ne_of_not_mem_cons hm'
      have hmem := List.not_mem_of_not_mem_cons hm'
      rw [hkept m' hmem, hheads, hpulled.other m' hne]

/-- A round in which all heads are below those of the remote makes them the same. -/
theorem Round.heads_eq {ms : List M} (h : Round ms s s')
    (hbelow : ∀ m, Below (s.heads m) s.remote) :
    s'.remote = s.remote ∧ (∀ m ∈ ms, s'.heads m = s.remote) ∧
      ∀ m, m ∉ ms → s'.heads m = s.heads m := by
  induction h with
  | nil => exact ⟨rfl, fun m hm => absurd hm List.not_mem_nil, fun _ _ => rfl⟩
  | @turn m ms s pulled pushed s' results hpull hpush hrest ih =>
    have hpulled := pulled_of_returns hpull
    obtain ⟨hheads, hremote⟩ := remote_of_push (hpulled.remote ▸ hpulled.merged) hpush
    have hown : pushed.heads m = s.remote := hheads ▸ hpulled.adopted (hbelow m)
    have hsame : pushed.remote = s.remote := hremote.trans (hpulled.adopted (hbelow m))
    have hother (m' : M) (hne : m' ≠ m) : pushed.heads m' = s.heads m' := by
      rw [hheads, hpulled.other m' hne]
    obtain ⟨hfinal, hall, hkept⟩ := ih fun m' => by
      by_cases heq : m' = m
      · rw [heq, hown, hsame]
        exact .refl _
      · rw [hother m' heq, hsame]
        exact hbelow m'
    refine ⟨hfinal.trans hsame, fun m' hm' => ?_, fun m' hm' => ?_⟩
    · by_cases hmem : m' ∈ ms
      · exact (hall m' hmem).trans hsame
      · obtain rfl := (List.mem_cons.mp hm').resolve_right hmem
        exact (hkept m' hmem).trans hown
    · have hne := List.ne_of_not_mem_cons hm'
      have hmem := List.not_mem_of_not_mem_cons hm'
      exact (hkept m' hmem).trans (hother m' hne)

end Settled

/-! ### Runs of all machines -/

section Runs

variable {ι : Type} [DecidableEq ι] {tasks : ι → Task M} {start : Shared log M}
  {events : List (Event ι (SyncOp log M) (Shared log M))}
  {final : Pool (SyncOp log M) (fun op => Except SyncError op.Ret)
    (fun _ : ι => Except SyncError Unit) (Shared log M)}

/-- The steps of a careful run lose no operation. -/
theorem keeps_of_mem (h : Run SyncOp.exec (pool tasks start) events final)
    (hcareful : ∀ e ∈ events, e.op.Careful e.before) :
    ∀ e ∈ events, Keeps e.before e.after := by
  have hrun : Run (fun op s r s' => SyncOp.exec op s r s' ∧ SyncOp.Careful op s)
    (pool tasks start) events final := Run.restrict_iff.mpr ⟨h, hcareful⟩
  have hstart (i : ι) : ∃ P, P start ∧ Meets carefulExec (fun _ _ => True) Keeps
      (Ends (fun _ _ => True) fun _ => True) (tasks i).program.run P :=
    ⟨fun _ => True, trivial, safe_program (tasks i)⟩
  exact (hrun.meets (fun _ _ _ _ _ _ => trivial) hstart).2

/-- What is kept by all steps is kept from each of them to the end. -/
theorem keeps_to_end (h : Run SyncOp.exec (pool tasks start) events final)
    (hkeeps : ∀ e ∈ events, Keeps e.before e.after) :
    Keeps start final.state ∧ ∀ e ∈ events, Keeps e.before final.state := by
  induction h with
  | nil => exact ⟨.refl _, fun e he => absurd he List.not_mem_nil⟩
  | @step events before i op next r s h hi hexec ih =>
    obtain ⟨hstart, hevents⟩ := ih fun e he => hkeeps e (List.mem_append_left _ he)
    have hlast : Keeps before.state s := hkeeps _ (List.mem_append_right _ List.mem_cons_self)
    refine ⟨hstart.trans hlast, fun e he => ?_⟩
    rcases List.mem_append.mp he with he | he
    · exact (hevents e he).trans hlast
    · obtain rfl := List.mem_singleton.mp he
      exact hlast

/-- Careful runs lose no operation, and two rounds after them make all heads equal. -/
theorem sync_loses_nothing (h : Run SyncOp.exec (pool tasks start) events final)
    (hcareful : ∀ e ∈ events, e.op.Careful e.before) :
    Keeps start final.state ∧ (∀ e ∈ events, Keeps e.before final.state) ∧
      ∀ (first second : List M) (s₁ s₂ : Shared log M), (∀ m, m ∈ first) → (∀ m, m ∈ second) →
        Round first final.state s₁ → Round second s₁ s₂ → ∀ m, s₂.heads m = s₂.remote := by
  obtain ⟨hstart, hevents⟩ := keeps_to_end h (keeps_of_mem h hcareful)
  refine ⟨hstart, hevents, fun first second s₁ s₂ hfirst hsecond hround₁ hround₂ m => ?_⟩
  have hbelow (m : M) : Below (s₁.heads m) s₁.remote := hround₁.heads_below.2.1 m (hfirst m)
  obtain ⟨hremote, hheads, -⟩ := hround₂.heads_eq hbelow
  rw [hheads m (hsecond m), hremote]

end Runs

/-! ### One append and one push -/

/-- The operations of a log of two. -/
def firstOp : Stored describedLog.store := ⟨sampleOid 1, by decide⟩

def secondOp : Stored describedLog.store := ⟨sampleOid 2, by decide⟩

/-- All machines have the head of a log of one operation, and the remote has another head. -/
def sharedLog (remote : Heads describedLog.store) : Shared describedLog.store Bool where
  heads _ := Finmap.singleton sampleWs firstOp
  staged _ := ∅
  remote := remote

/-- A machine appends the second operation. -/
theorem sync_loses_nothing_append : ∃ events final,
    Run SyncOp.exec (pool (fun _ : Unit => .append false sampleWs sampleAppender) (sharedLog ∅))
      events final ∧ (final.state.heads false).lookup sampleWs = some secondOp ∧
        Keeps (sharedLog ∅) final.state := by
  have hhead : Finmap.lookup sampleWs ((sharedLog ∅).heads false) = some firstOp :=
    Finmap.lookup_singleton_eq
  have hread : SyncOp.exec (.readHead false sampleWs) (sharedLog ∅) (.ok (some firstOp))
      (sharedLog ∅) := ⟨rfl, .inl ⟨_, rfl, hhead.symm⟩⟩
  have hwrite : SyncOp.exec (M := Bool) (.writeOperationBlob sampleDescribe) (sharedLog ∅)
      (.ok secondOp) (sharedLog ∅) := ⟨rfl, .inl ⟨_, rfl, Finmap.lookup_insert _⟩⟩
  have hcas : SyncOp.exec (.writeRefCas false sampleWs (some firstOp) secondOp) (sharedLog ∅)
      (.ok ()) ((sharedLog ∅).setHead false sampleWs secondOp) :=
    ⟨.inl ⟨rfl, rfl⟩, fun _ => .inl hhead⟩
  have hrun : Run SyncOp.exec (pool (fun _ : Unit => .append false sampleWs sampleAppender)
      (sharedLog ∅)) _ _ := ((Run.nil.step (i := ()) rfl hread).step (i := ()) rfl hwrite).step
        (i := ()) rfl hcas
  refine ⟨_, _, hrun, lookup_setHead _, (sync_loses_nothing hrun ?_).1⟩
  intro e he
  rcases List.mem_append.mp he with he | he
  · rcases List.mem_append.mp he with he | he
    · obtain rfl := List.mem_singleton.mp he
      trivial
    · obtain rfl := List.mem_singleton.mp he
      trivial
  · obtain rfl := List.mem_singleton.mp he
    trivial

/-- A machine with an old head pushes it over a newer one. -/
theorem not_keeps : ∃ events final,
    Run SyncOp.exec (pool (fun _ : Unit => .push false)
      (sharedLog (Finmap.singleton sampleWs secondOp))) events final ∧
        ¬ Keeps (sharedLog (Finmap.singleton sampleWs secondOp)) final.state := by
  let start := sharedLog (Finmap.singleton sampleWs secondOp)
  have hremote : start.remote.lookup sampleWs = some secondOp := Finmap.lookup_singleton_eq
  have hown : (start.heads false).lookup sampleWs = some firstOp := Finmap.lookup_singleton_eq
  have hkeys : inOrderOf NamedWorkspace.asStr NamedWorkspace.asStr_injective
      (start.heads false).keys = [sampleWs] := by decide +kernel
  have hpush : Prog.Runs SyncOp.exec (pushHeads (start.heads false) start.remote
      (inOrderOf NamedWorkspace.asStr NamedWorkspace.asStr_injective (start.heads false).keys)).run
      start (.done (.ok ())) (start.setRemote sampleWs firstOp) := by
    have hne : start.remote.lookup sampleWs ≠ some firstOp := by
      rw [hremote]
      decide
    rw [hkeys, pushHeads, hown]
    simp only [if_neg hne]
    exact .step (r := .ok ()) (.inl ⟨rfl, rfl, .inl rfl⟩) (.refl _ _)
  have hruns : Prog.Runs SyncOp.exec (push false).run start (.done (.ok ()))
      (start.setRemote sampleWs firstOp) := by
    refine .step (r := .ok []) ⟨rfl, .inl ⟨[], rfl, by decide +kernel⟩⟩ ?_
    refine .step (r := .ok true) ⟨rfl, .inl ⟨true, rfl, fun h => by cases h⟩⟩ ?_
    refine .step (r := .ok ()) ⟨rfl, .inl ⟨(), rfl, trivial⟩⟩ ?_
    refine .step (r := .ok (start.heads false)) ⟨rfl, .inl ⟨_, rfl, rfl⟩⟩ ?_
    refine .step (r := .ok start.remote) ⟨rfl, .inl ⟨_, rfl, rfl⟩⟩ ?_
    exact hpush
  have hstart : Run SyncOp.exec (pool (fun _ : Unit => .push false) start) []
      (pool (fun _ : Unit => .push false) start) := .nil
  obtain ⟨events, hrun⟩ := hstart.runs (i := ()) hruns
  refine ⟨_, _, hrun, fun hkeeps => ?_⟩
  obtain ⟨top, htop, hanc⟩ := hkeeps.remote sampleWs secondOp.1 ⟨secondOp, hremote, .refl _⟩
  have hfirst : (start.setRemote sampleWs firstOp).remote.lookup sampleWs = some firstOp := by
    rw [Shared.lookup_setRemote, if_pos rfl]
  rw [Pool.advance_state, hfirst] at htop
  obtain rfl := Option.some.inj htop
  have hparent : describedLog.store.ParentOf firstOp.1 secondOp.1 :=
    ⟨sampleDescribe, Finmap.lookup_insert _, List.mem_singleton_self _⟩
  have heq := hanc.antisymm hparent.isAncestor
  exact absurd heq (by decide)

end Maw.ManifoldSync
