import Maw.Library.Triples
import Maw.Oplog.CheckpointReplay

/-!
# Concurrent appends to a log

Several processes append to the log of one workspace: each reads the head, stores an operation on
top of it and moves the head by a compare-and-swap. The first operation of a log is one whose head
must not exist yet; that is looked up before the transaction. Whatever the order of their steps,
the appended operations are one chain from the head that the log had before to its last head.

## Main definitions

* `AppendOp`, `AppendOp.exec` — the operations and what they do.
* `writeRefCasVia`, `Append.appendOperation` — the compare-and-swap and an append.
* `Extends` — a log that was extended by a chain of operations.
* `Descent` — a way down from the head along parents.

## Main results

* `append_linearizable` — the appends that return are in one chain, and the others did nothing.
-/

open Interleaved

namespace Maw.Oplog

inductive AppendError
  | read (e : OpLogReadError)
  | write (e : OpLogWriteError)
  deriving DecidableEq, Repr

inductive AppendOp
  | readRef (name : String)
  | writeOperationBlob (op : Operation)
  | atomicRefUpdate (edit : RefEdit)

namespace AppendOp

/-- What an operation returns. -/
abbrev Ret : AppendOp → Type
  | readRef _ => Option GitOid
  | writeOperationBlob _ => GitOid
  | atomicRefUpdate _ => Unit

/-- What an operation does. A write of a blob that fails may have stored it. A ref that must not
exist may also be at its new value already. -/
def exec : (op : AppendOp) → OpLog → Except AppendError op.Ret → OpLog → Prop
  | readRef name, log, r, log' =>
    log' = log ∧ (r = .ok (log.refs.lookup name) ∨ ∃ e, r = .error (.read (.refError e)))
  | writeOperationBlob op, log, r, log' =>
    (∃ oid store, log.store.Adds oid op store ∧ log' = { log with store } ∧
        (r = .ok oid ∨ ∃ e, r = .error (.write e))) ∨
      (∃ e, r = .error (.write e)) ∧ log' = log
  | atomicRefUpdate edit, log, r, log' =>
    (r = .ok () ∧ log' = { log with refs := log.refs.insert edit.name edit.newOid } ∧
        (log.refs.Matches edit.name edit.oldOid ∨
          edit.oldOid.bits = 0 ∧ log.refs.lookup edit.name = some edit.newOid)) ∨
      (∃ e, r = .error (.write e)) ∧ log' = log

end AppendOp

/-- Programs that append to logs. -/
abbrev AppendProg := Fallible AppendError AppendOp AppendOp.Ret

namespace Append

/-- Move a ref from one value to another; the zero id stands for a ref that does not exist, and
then the ref is looked up first. -/
def writeRefCasVia (ws : NamedWorkspace) (name : String) (oldOid newOid : GitOid) :
    AppendProg Unit :=
  if oldOid.bits = 0 then do
    match ← asOption (attempt (AppendOp.readRef name)) with
    | some (some _) => throw (.write (.casMismatch ws))
    | _ => attempt (AppendOp.atomicRefUpdate ⟨name, oldOid, newOid⟩)
  else attempt (AppendOp.atomicRefUpdate ⟨name, oldOid, newOid⟩)

/-- Store an operation and move the head to it. -/
def appendOperation (ws : NamedWorkspace) (op : Operation) (oldHead : Option GitOid) :
    AppendProg GitOid := do
  let newOid ← attempt (AppendOp.writeOperationBlob op)
  writeRefCasVia ws (workspaceHeadRef ws) (oldHead.getD ⟨0⟩) newOid
  return newOid

end Append

/-- What a process appends on top of the head that it reads. -/
structure Appender where
  timestamp : Option GitOid → String
  payload : Option GitOid → OpPayload

namespace Appender

/-- The operation on top of a head. -/
def operation (appender : Appender) (ws : NamedWorkspace) (head : Option GitOid) : Operation :=
  ⟨head.toList, ws, appender.timestamp head, appender.payload head⟩

/-- Read the head and append on top of it. -/
def program (appender : Appender) (ws : NamedWorkspace) : AppendProg GitOid := do
  let head ← attempt (AppendOp.readRef (workspaceHeadRef ws))
  Append.appendOperation ws (appender.operation ws head) head

/-- Several processes before they have started. -/
def pool {ι : Type} (appenders : ι → Appender) (ws : NamedWorkspace) (log : OpLog) :
    Pool AppendOp (fun op => Except AppendError op.Ret) (fun _ : ι => Except AppendError GitOid)
      OpLog :=
  ⟨fun i => ((appenders i).program ws).run, log⟩

end Appender

/-! ### Chains of appended operations -/

/-- The operations lead from one head to another one, each on top of the one before. -/
inductive Extends (s : OpStore) : Option GitOid → List GitOid → Option GitOid → Prop
  | nil (head : Option GitOid) : Extends s head [] head
  | snoc {head head' : Option GitOid} {order : List GitOid} {oid : GitOid} {op : Operation}
      (h : Extends s head order head') (hop : s.nodes.lookup oid = some op)
      (hparents : op.parentIds = head'.toList) : Extends s head (order ++ [oid]) (some oid)

/-- A way down from an operation along parents. -/
inductive Descent (s : OpStore) : GitOid → List GitOid → GitOid → Prop
  | refl (oid : GitOid) : Descent s oid [oid] oid
  | step {oid parent target : GitOid} {path : List GitOid} (hparent : s.ParentOf parent oid)
      (h : Descent s parent path target) : Descent s oid (oid :: path) target

section Chains

variable {s s' : OpStore} {head head' : Option GitOid} {order : List GitOid} {oid target : GitOid}

theorem Extends.mono (h : Extends s head order head')
    (hs : ∀ k op, s.nodes.lookup k = some op → s'.nodes.lookup k = some op) :
    Extends s' head order head' := by
  induction h with
  | nil => exact .nil _
  | snoc _ hop hparents ih => exact .snoc ih (hs _ _ hop) hparents

/-- The last appended operation is the head. -/
theorem Extends.mem_of_ne (h : Extends s head order head') (hne : head' ≠ head) :
    ∃ oid ∈ order, head' = some oid := by
  cases h with
  | nil => exact absurd rfl hne
  | snoc => exact ⟨_, by simp, rfl⟩

theorem Extends.head_mem (h : Extends s head order head') (horder : order ≠ []) :
    ∃ oid ∈ order, head' = some oid := by
  cases h with
  | nil => exact absurd rfl horder
  | snoc => exact ⟨_, by simp, rfl⟩

theorem Descent.isAncestor {path : List GitOid} (h : Descent s oid path target) :
    s.IsAncestor target oid := by
  induction h with
  | refl => exact .refl _
  | step hparent _ ih => exact ih.trans hparent.isAncestor

/-- There is one way from the head to each appended operation. -/
theorem Extends.existsUnique_descent (h : Extends s head order head') {oid : GitOid}
    (hhead : head' = some oid) (htarget : target ∈ order) :
    ∃! path, Descent s oid path target := by
  induction h generalizing oid with
  | nil => exact absurd htarget List.not_mem_nil
  | @snoc head' order top op hrest hop hparents ih =>
    obtain rfl := Option.some.inj hhead
    by_cases heq : target = top
    · -- The head itself: a longer way would be a cycle.
      subst heq
      refine ⟨[target], .refl _, fun path hpath => ?_⟩
      cases hpath with
      | refl => rfl
      | step hparent hrest =>
        have hloop : Relation.TransGen s.ParentOf target target :=
          Relation.TransGen.tail' hrest.isAncestor hparent
        exact absurd hloop (NodeStore.transGen_irrefl _)
    · have htarget : target ∈ order := by
        rcases List.mem_append.mp htarget with htarget | htarget
        · exact htarget
        · exact absurd (List.mem_singleton.mp htarget) heq
      obtain ⟨below, -, rfl⟩ := hrest.head_mem (List.ne_nil_of_mem htarget)
      obtain ⟨path, hpath, hunique⟩ := ih rfl htarget
      have hparent : s.ParentOf below top := ⟨op, hop, by rw [hparents]; simp⟩
      refine ⟨top :: path, .step hparent hpath, fun path' hpath' => ?_⟩
      cases hpath' with
      | refl => exact absurd rfl heq
      | step hparent' hrest' =>
        obtain ⟨op', hop', hmem⟩ := hparent'
        rw [hop] at hop'
        obtain rfl := Option.some.inj hop'
        rw [hparents, Option.toList_some, List.mem_singleton] at hmem
        subst hmem
        rw [hunique _ hrest']

theorem Extends.isAncestor {base : GitOid} (h : Extends s head order head')
    (hbase : head = some base) : ∃ top, head' = some top ∧ s.IsAncestor base top := by
  induction h with
  | nil => exact ⟨base, hbase, .refl _⟩
  | @snoc head' order top op hrest hop hparents ih =>
    obtain ⟨below, hbelow, hanc⟩ := ih
    have hparent : s.ParentOf below top := ⟨op, hop, by rw [hparents, hbelow]; simp⟩
    exact ⟨top, rfl, hanc.trans hparent.isAncestor⟩

/-- No chain of operations comes back to where it started. -/
theorem Extends.eq_nil (h : Extends s head order head') (hend : head = head') : order = [] := by
  cases h with
  | nil => rfl
  | @snoc head' order top op hrest hop hparents =>
    obtain ⟨below, hbelow, hanc⟩ := hrest.isAncestor hend
    have hparent : s.ParentOf below top := ⟨op, hop, by rw [hparents, hbelow]; simp⟩
    exact absurd (Relation.TransGen.tail' hanc hparent) (NodeStore.transGen_irrefl _)

/-- The chain between two heads is the only one. -/
theorem Extends.unique {order' : List GitOid} (h : Extends s head order head')
    (h' : Extends s head order' head') : order = order' := by
  induction h generalizing order' with
  | nil => exact (h'.eq_nil rfl).symm
  | @snoc below order top op hrest hop hparents ih =>
    cases h' with
    | nil => exact absurd ((Extends.snoc hrest hop hparents).eq_nil rfl) (by simp)
    | @snoc below' order' _ op' hrest' hop' hparents' =>
      obtain rfl := Option.some.inj (hop.symm.trans hop')
      have hbelow : below = below' := by
        have hlist := hparents.symm.trans hparents'
        cases below <;> cases below' <;> simp_all
      subst hbelow
      rw [ih hrest']

end Chains

/-! ### The steps of an append -/

section Steps

variable {ws : NamedWorkspace} {log log' : OpLog} {start : Option GitOid}

/-- What a step of an append may do: store operations, and move the head to an operation on top
of it. -/
def AppendStep (ws : NamedWorkspace) (log log' : OpLog) : Prop :=
  (∀ oid op, log.store.nodes.lookup oid = some op → log'.store.nodes.lookup oid = some op) ∧
    (log'.readHead ws = log.readHead ws ∨
      ∃ oid op, log'.readHead ws = some oid ∧ log'.store.nodes.lookup oid = some op ∧
        op.parentIds = (log.readHead ws).toList)

/-- The head moved along these operations since the start. -/
def Grown (ws : NamedWorkspace) (start : Option GitOid) (order : List GitOid) (log : OpLog) :
    Prop := Extends log.store start order (log.readHead ws)

/-- The log has grown along a chain that the head was on when it was read. -/
def SawHead (ws : NamedWorkspace) (start head : Option GitOid) (log : OpLog) : Prop :=
  ∃ order, Grown ws start order log ∧ (head = start ∨ ∃ oid ∈ order, head = some oid)

/-- An operation on top of the head that was read is stored. -/
def Wrote (ws : NamedWorkspace) (start head : Option GitOid) (oid : GitOid) (log : OpLog) : Prop :=
  SawHead ws start head log ∧
    ∃ op, log.store.nodes.lookup oid = some op ∧ op.parentIds = head.toList

/-- The operation is one of the chain. -/
def Appended (ws : NamedWorkspace) (start : Option GitOid) (oid : GitOid) (log : OpLog) : Prop :=
  ∃ order, Grown ws start order log ∧ oid ∈ order

theorem AppendStep.refl (ws : NamedWorkspace) (log : OpLog) : AppendStep ws log log :=
  ⟨fun _ _ h => h, .inl rfl⟩

theorem AppendStep.grown {order : List GitOid} (h : AppendStep ws log log')
    (hgrown : Grown ws start order log) : ∃ more, Grown ws start (order ++ more) log' := by
  obtain ⟨hstore, hhead | ⟨oid, op, hhead, hop, hparents⟩⟩ := h
  · refine ⟨[], ?_⟩
    rw [List.append_nil, Grown, hhead]
    exact Extends.mono hgrown hstore
  · refine ⟨[oid], ?_⟩
    rw [Grown, hhead]
    exact (Extends.mono hgrown hstore).snoc hop hparents

theorem stable_grown : Stable (AppendStep ws) fun log => ∃ order, Grown ws start order log := by
  rintro log log' hstep ⟨order, hgrown⟩
  obtain ⟨more, hgrown⟩ := hstep.grown hgrown
  exact ⟨_, hgrown⟩

theorem stable_sawHead (head : Option GitOid) : Stable (AppendStep ws) (SawHead ws start head) := by
  rintro log log' hstep ⟨order, hgrown, hsaw⟩
  obtain ⟨more, hgrown⟩ := hstep.grown hgrown
  refine ⟨order ++ more, hgrown, hsaw.imp_right ?_⟩
  rintro ⟨oid, hoid, rfl⟩
  exact ⟨oid, List.mem_append_left _ hoid, rfl⟩

theorem stable_wrote (head : Option GitOid) (oid : GitOid) :
    Stable (AppendStep ws) (Wrote ws start head oid) := by
  rintro log log' hstep ⟨hsaw, op, hop, hparents⟩
  exact ⟨stable_sawHead head log log' hstep hsaw, op, hstep.1 _ _ hop, hparents⟩

theorem stable_appended (oid : GitOid) : Stable (AppendStep ws) (Appended ws start oid) := by
  rintro log log' hstep ⟨order, hgrown, hoid⟩
  obtain ⟨more, hgrown⟩ := hstep.grown hgrown
  exact ⟨_, hgrown, List.mem_append_left _ hoid⟩

/-- The head that is read is on the chain. -/
theorem sawHead_readHead {order : List GitOid} (hgrown : Grown ws start order log) :
    SawHead ws start (log.readHead ws) log := by
  refine ⟨order, hgrown, ?_⟩
  by_cases heq : log.readHead ws = start
  · exact .inl heq
  · exact .inr (Extends.mem_of_ne hgrown heq)

theorem SawHead.grown {head : Option GitOid} (h : SawHead ws start head log) :
    ∃ order, Grown ws start order log := by
  obtain ⟨order, hgrown, -⟩ := h
  exact ⟨order, hgrown⟩

/-- A log that had a head still has one. -/
theorem SawHead.eq_none {head : Option GitOid} (h : SawHead ws start head log)
    (hnone : log.readHead ws = none) : head = none := by
  obtain ⟨order, hgrown, hsaw⟩ := h
  rw [Grown, hnone] at hgrown
  cases hgrown with
  | nil => simpa using hsaw

/-- An operation that is at the head before it is appended was appended already: it would be its
own parent otherwise. -/
theorem Wrote.appended {head : Option GitOid} {oid : GitOid} (h : Wrote ws start head oid log)
    (hhead : log.readHead ws = some oid) :
    Appended ws start oid log := by
  obtain ⟨⟨order, hgrown, hsaw⟩, op, hop, hparents⟩ := h
  refine ⟨order, hgrown, ?_⟩
  by_cases horder : order = []
  · subst horder
    have hstart : start = some oid := by
      rw [Grown, hhead] at hgrown
      generalize hlist : ([] : List GitOid) = order at hgrown
      cases hgrown with
      | nil => rfl
      | snoc => simp at hlist
    have hself : head = some oid := by
      rcases hsaw with heq | ⟨_, hmem, -⟩
      · rw [heq, hstart]
      · exact absurd hmem List.not_mem_nil
    have hparent : log.store.ParentOf oid oid := ⟨op, hop, by rw [hparents, hself]; simp⟩
    exact absurd (Relation.TransGen.single hparent) (NodeStore.transGen_irrefl _)
  · obtain ⟨top, htop, heq⟩ := Extends.head_mem hgrown horder
    obtain rfl := Option.some.inj (hhead.symm.trans heq)
    exact htop

end Steps

/-! ### The programs -/

section Programs

variable (ws : NamedWorkspace) (start : Option GitOid)

/-- The log has grown along some chain. -/
def Linear (log : OpLog) : Prop := ∃ order, Grown ws start order log

/-- A triple of the programs that append to the log of a workspace. -/
abbrev AppendTriple {α : Type} (P : OpLog → Prop) (p : AppendProg α) (R : α → OpLog → Prop) :
    Prop :=
  Triple AppendOp.exec (AppendStep ws) (AppendStep ws) P p R (Linear ws start)

variable {ws start}

theorem triple_readHead : AppendTriple ws start (Linear ws start)
    (attempt (AppendOp.readRef (workspaceHeadRef ws))) (SawHead ws start) := by
  refine triple_attempt stable_grown stable_sawHead stable_grown ?_
  rintro log r log' ⟨order, hgrown⟩ ⟨rfl, hr⟩
  refine ⟨.refl ws _, ?_⟩
  rcases hr with rfl | ⟨e, rfl⟩
  · exact sawHead_readHead hgrown
  · exact ⟨order, hgrown⟩

theorem triple_writeOperationBlob (op : Operation) (head : Option GitOid)
    (hparents : op.parentIds = head.toList) : AppendTriple ws start (SawHead ws start head)
      (attempt (AppendOp.writeOperationBlob op)) (Wrote ws start head) := by
  refine triple_attempt (stable_sawHead head) (stable_wrote head) stable_grown ?_
  rintro log r log' hsaw (⟨oid, store, hadds, rfl, hr⟩ | ⟨⟨e, rfl⟩, rfl⟩)
  · have hstep : AppendStep ws log { log with store } := ⟨fun _ _ h => hadds.lookup h, .inl rfl⟩
    have hsaw' := stable_sawHead head _ _ hstep hsaw
    refine ⟨hstep, ?_⟩
    rcases hr with rfl | ⟨e, rfl⟩
    · exact ⟨hsaw', op, hadds.lookup_self, hparents⟩
    · exact hsaw'.grown
  · exact ⟨.refl ws _, hsaw.grown⟩

theorem triple_atomicRefUpdate (head : Option GitOid) (newOid : GitOid) :
    AppendTriple ws start (Wrote ws start head newOid)
      (attempt (AppendOp.atomicRefUpdate ⟨workspaceHeadRef ws, head.getD ⟨0⟩, newOid⟩))
      fun _ => Appended ws start newOid := by
  refine triple_attempt (stable_wrote head newOid) (fun _ => stable_appended newOid)
    stable_grown ?_
  rintro log r log' hwrote (⟨rfl, rfl, hold⟩ | ⟨⟨e, rfl⟩, rfl⟩)
  · have hhead : OpLog.readHead { log with refs := log.refs.insert (workspaceHeadRef ws) newOid } ws
        = some newOid := Finmap.lookup_insert _
    rcases hold with hmatches | ⟨-, hsame⟩
    · -- The head is the one that was read.
      have hread : log.readHead ws = head := by
        rw [RefStore.Matches] at hmatches
        split_ifs at hmatches with hzero
        · rw [hwrote.1.eq_none hmatches]
          exact hmatches
        · rcases head with _ | head
          · exact absurd rfl hzero
          · exact hmatches
      obtain ⟨hsaw, op, hop, hparents⟩ := hwrote
      obtain ⟨order, hgrown⟩ := hsaw.grown
      refine ⟨⟨fun _ _ h => h, .inr ⟨newOid, op, hhead, hop, hread ▸ hparents⟩⟩, ?_⟩
      refine ⟨order ++ [newOid], ?_, by simp⟩
      rw [Grown, hhead]
      exact Extends.snoc hgrown hop (hread ▸ hparents)
    · -- The head is the new one already.
      have hstep : AppendStep ws log
          { log with refs := log.refs.insert (workspaceHeadRef ws) newOid } :=
        ⟨fun _ _ h => h, .inl (hhead.trans hsame.symm)⟩
      exact ⟨hstep, stable_appended newOid _ _ hstep (hwrote.appended hsame)⟩
  · exact ⟨.refl ws _, hwrote.1.grown⟩

/-- A look at the head changes nothing. -/
theorem triple_preCheck (head : Option GitOid) (newOid : GitOid) :
    AppendTriple ws start (Wrote ws start head newOid)
      (asOption (attempt (AppendOp.readRef (workspaceHeadRef ws))))
      fun _ => Wrote ws start head newOid := by
  have hread : Triple AppendOp.exec (AppendStep ws) (AppendStep ws) (Wrote ws start head newOid)
      (attempt (AppendOp.readRef (workspaceHeadRef ws))) (fun _ => Wrote ws start head newOid)
      (Wrote ws start head newOid) := by
    refine triple_attempt (stable_wrote head newOid) (fun _ => stable_wrote head newOid)
      (stable_wrote head newOid) ?_
    rintro log r log' hwrote ⟨rfl, hr⟩
    refine ⟨.refl ws _, ?_⟩
    rcases hr with rfl | ⟨e, rfl⟩
    · exact hwrote
    · exact hwrote
  have hcheck : AppendTriple ws start (Wrote ws start head newOid)
      (asOption (attempt (AppendOp.readRef (workspaceHeadRef ws))))
      (fun o log => o.elim (Wrote ws start head newOid log) fun _ =>
        Wrote ws start head newOid log) :=
    triple_asOption (fun _ => stable_wrote head newOid) (stable_wrote head newOid) hread
  refine Meets.imp hcheck ?_
  rintro (e | _ | oid) log h
  · exact h
  · exact h
  · exact h

theorem triple_writeRefCasVia (head : Option GitOid) (newOid : GitOid) :
    AppendTriple ws start (Wrote ws start head newOid)
      (Append.writeRefCasVia ws (workspaceHeadRef ws) (head.getD ⟨0⟩) newOid)
      fun _ => Appended ws start newOid := by
  rw [Append.writeRefCasVia]
  split_ifs
  · refine triple_bind stable_grown (triple_preCheck head newOid) ?_
    rintro (_ | _ | oid)
    · exact triple_atomicRefUpdate head newOid
    · exact triple_atomicRefUpdate head newOid
    · exact triple_throw (stable_wrote head newOid) fun log hwrote => hwrote.1.grown
  · exact triple_atomicRefUpdate head newOid

/-- An append of an operation on top of the head that was read. -/
theorem triple_appendOperation (op : Operation) (head : Option GitOid)
    (hparents : op.parentIds = head.toList) : AppendTriple ws start (SawHead ws start head)
      (Append.appendOperation ws op head) (Appended ws start) := by
  refine triple_bind stable_grown (triple_writeOperationBlob op head hparents) fun newOid => ?_
  refine triple_bind stable_grown (triple_writeRefCasVia head newOid) fun _ => ?_
  exact triple_pure (stable_appended newOid) fun _ h => h

theorem triple_program (appender : Appender) :
    AppendTriple ws start (Linear ws start) (appender.program ws) (Appended ws start) := by
  refine triple_bind stable_grown triple_readHead fun head => ?_
  exact triple_appendOperation _ head rfl

end Programs

/-! ### Appends that fail -/

section Fails

/-- The operations that are no transaction leave the refs alone. -/
theorem AppendOp.exec_refs (op : AppendOp) (log : OpLog) (r : Except AppendError op.Ret)
    (log' : OpLog) (hop : ∀ edit, op ≠ .atomicRefUpdate edit) (h : op.exec log r log') :
    log'.refs = log.refs := by
  cases op with
  | readRef name => rw [h.1]
  | writeOperationBlob op =>
    rcases h with ⟨oid, store, -, rfl, -⟩ | ⟨-, rfl⟩
    · rfl
    · rfl
  | atomicRefUpdate edit => exact absurd rfl (hop edit)

/-- After its transaction an append does not fail. -/
theorem settles_atomicRefUpdate (edit : RefEdit) (newOid : GitOid) :
    (do attempt (AppendOp.atomicRefUpdate edit); return newOid : AppendProg GitOid).run.Settles
      AppendOp.exec (fun log log' => log'.refs = log.refs) fun r => ∃ e, r = .error e := by
  rw [run_attempt_bind]
  rintro (e | u)
  · refine ⟨?_, trivial⟩
    rintro log log' (⟨hr, -⟩ | ⟨-, rfl⟩) hrefs
    · cases hr
    · exact absurd rfl hrefs
  · have havoids : (pure newOid : AppendProg GitOid).run.Avoids fun r => ∃ e, r = .error e := by
      rintro ⟨e, he⟩
      cases he
    exact ⟨fun _ _ _ _ => havoids, Prog.settles_of_avoids havoids⟩

/-- An append that has moved the head does not fail. -/
theorem settles_program (appender : Appender) (ws : NamedWorkspace) :
    (appender.program ws).run.Settles AppendOp.exec (fun log log' => log'.refs = log.refs)
      fun r => ∃ e, r = .error e := by
  have hread (name : String) : (attempt (AppendOp.readRef name) :
      AppendProg (Option GitOid)).run.Only (∀ edit, · ≠ .atomicRefUpdate edit) :=
    ⟨fun _ h => (by cases h), fun _ => trivial⟩
  refine Prog.settles_bind AppendOp.exec_refs (hread _) ?_
  rintro (e | head)
  · trivial
  have hwrite (op : Operation) : (attempt (AppendOp.writeOperationBlob op) :
      AppendProg GitOid).run.Only (∀ edit, · ≠ .atomicRefUpdate edit) :=
    ⟨fun _ h => (by cases h), fun _ => trivial⟩
  refine Prog.settles_bind AppendOp.exec_refs (hwrite _) ?_
  rintro (e | newOid)
  · trivial
  show ((Append.writeRefCasVia ws (workspaceHeadRef ws) (head.getD ⟨0⟩) newOid >>= fun _ =>
    pure newOid : AppendProg GitOid)).run.Settles _ _ _
  rw [Append.writeRefCasVia]
  split_ifs
  · rw [bind_assoc]
    refine Prog.settles_bind AppendOp.exec_refs (K := (∀ edit, · ≠ .atomicRefUpdate edit)) ?_ ?_
    · exact (hread _).bind fun _ => trivial
    · rintro (e | _ | _ | oid)
      · trivial
      · exact settles_atomicRefUpdate _ newOid
      · exact settles_atomicRefUpdate _ newOid
      · trivial
  · exact settles_atomicRefUpdate _ newOid

end Fails

/-! ### Runs -/

section Runs

variable {ι : Type} [DecidableEq ι] {appenders : ι → Appender} {ws : NamedWorkspace} {log : OpLog}
  {events : List (Event ι AppendOp OpLog)}
  {pool : Pool AppendOp (fun op => Except AppendError op.Ret)
    (fun _ : ι => Except AppendError GitOid) OpLog}

/-- Whatever the order of the steps, the appends that return are one chain on top of the head
before, each found from the last head in one way; those that fail have not moved the head. -/
theorem append_linearizable (h : Run AppendOp.exec (Appender.pool appenders ws log) events pool) :
    (∃ order, Extends pool.state.store (log.readHead ws) order (pool.state.readHead ws) ∧
        ∀ i oid, pool.progs i = .done (.ok oid) → oid ∈ order) ∧
      (∀ i oid, pool.progs i = .done (.ok oid) → ∃ head, pool.state.readHead ws = some head ∧
        ∃! path, Descent pool.state.store head path oid) ∧
      ∀ i e, pool.progs i = .done (.error e) →
        ∀ event ∈ events, event.who = i → event.after.refs = event.before.refs := by
  have hstart (i : ι) : ∃ P, P (Appender.pool appenders ws log).state ∧
      Meets AppendOp.exec (AppendStep ws) (AppendStep ws)
        (Ends (Appended ws (log.readHead ws)) (Linear ws (log.readHead ws)))
        ((Appender.pool appenders ws log).progs i) P :=
    ⟨_, ⟨[], .nil _⟩, triple_program (appenders i)⟩
  have hown (i j : ι) (_ : j ≠ i) (s s' : OpLog) (hstep : AppendStep ws s s') :
      AppendStep ws s s' := hstep
  have hmeets := h.meets hown hstart
  obtain ⟨order, hgrown⟩ : Linear ws (log.readHead ws) pool.state := by
    refine h.induction (T := fun s s' => Linear ws (log.readHead ws) s →
      Linear ws (log.readHead ws) s') (fun _ hs => hs) (fun _ _ _ h h' hs => h' (h hs)) ?_
      ⟨[], .nil _⟩
    exact fun event hevent => stable_grown _ _ (hmeets.2 event hevent)
  have hmem (i : ι) (oid : GitOid) (hi : pool.progs i = .done (.ok oid)) : oid ∈ order := by
    obtain ⟨order', hgrown', hoid⟩ := h.promise hown hstart hi
    rwa [Extends.unique hgrown hgrown']
  refine ⟨⟨order, hgrown, hmem⟩, ?_, ?_⟩
  · intro i oid hi
    obtain ⟨head, -, hhead⟩ := Extends.head_mem hgrown (List.ne_nil_of_mem (hmem i oid hi))
    exact ⟨head, hhead, Extends.existsUnique_descent hgrown hhead (hmem i oid hi)⟩
  · intro i e hi event hevent hwho
    have hsettled := h.settled (settles_program (appenders i) ws)
    by_contra hrefs
    have havoids := hsettled.2 ⟨event, hevent, hwho, hrefs⟩
    rw [hi] at havoids
    exact havoids ⟨e, rfl⟩

/-- A process that describes the work on top of the head. -/
def sampleAppender : Appender := ⟨fun _ => sampleDescribe.timestamp, fun _ => sampleDescribe.payload⟩

/-- One of them appends the second operation of a log. -/
theorem append_linearizable_describedLog : ∃ events pool,
    Run AppendOp.exec (Appender.pool (fun _ : Bool => sampleAppender) sampleWs createdLog) events
      pool ∧ pool.progs true = .done (.ok (sampleOid 2)) ∧ pool.state = describedLog ∧
        ∃ order, Extends describedLog.store (some (sampleOid 1)) order (some (sampleOid 2)) ∧
          sampleOid 2 ∈ order := by
  have hhead : createdLog.refs.lookup (workspaceHeadRef sampleWs) = some (sampleOid 1) :=
    OpLog.readHead_appended
  have hread : AppendOp.exec (.readRef (workspaceHeadRef sampleWs)) createdLog
      (.ok (some (sampleOid 1))) createdLog := ⟨rfl, .inl (by rw [hhead])⟩
  have hwrite : AppendOp.exec (.writeOperationBlob sampleDescribe) createdLog (.ok (sampleOid 2))
      { createdLog with store := describedLog.store } :=
    .inl ⟨sampleOid 2, describedLog.store, .inr ⟨by decide, by decide, rfl⟩, rfl, .inl rfl⟩
  have hupdate : AppendOp.exec
      (.atomicRefUpdate ⟨workspaceHeadRef sampleWs, sampleOid 1, sampleOid 2⟩)
      { createdLog with store := describedLog.store } (.ok ()) describedLog :=
    .inl ⟨rfl, rfl, .inl hhead⟩
  have hrun : Run AppendOp.exec (Appender.pool (fun _ : Bool => sampleAppender) sampleWs createdLog)
      _ _ := ((Run.nil.step (i := true) rfl hread).step (i := true) rfl hwrite).step (i := true)
        rfl hupdate
  obtain ⟨⟨order, hextends, hmem⟩, -⟩ := append_linearizable hrun
  refine ⟨_, _, hrun, rfl, rfl, order, ?_, hmem true (sampleOid 2) rfl⟩
  rw [OpLog.readHead, hhead] at hextends
  exact hextends

end Runs

end Maw.Oplog
