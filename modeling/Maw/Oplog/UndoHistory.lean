import Maw.Oplog.Undo

/-!
# What an undo acts on

Merges, undos and redos move the epoch and record operations; merges into change branches record
operations of the same kind and leave the epoch where it is. An undo is to act on the last
operation that moved the epoch.

## Main definitions

* `Appends` — operations are stored on top of the logs of workspaces.
* `HistoryStep` — what happens to the logs and the epoch.
* `InOrder` — a step keeps the listing in the order of events.
* `TogglesLast` — an undo acts on the last movement of the epoch.

## Main results

* `togglesLast_iff` — it does when the newest operation of the listing is about that movement.
* `togglesLast_of_run` — it does in every run whose steps keep the order.
-/

open Interleaved

namespace Maw.Undo

open Oplog

/-- Operations are stored, each on top of the log of a workspace, whose head moves to it unless
that fails. -/
inductive Appends (P : NamedWorkspace → OpPayload → Prop) : OpLog → OpLog → Prop
  | refl (log : OpLog) : Appends P log log
  | stored {log log' : OpLog} {ws : NamedWorkspace} {oid : GitOid} {op : Operation}
      {store : OpStore} (h : Appends P log log') (hpayload : P ws op.payload)
      (hparents : op.parentIds = (log'.readHead ws).toList) (hadds : log'.store.Adds oid op store) :
      Appends P log { log' with store }
  | appended {log log' log'' : OpLog} {ws : NamedWorkspace} {oid : GitOid} {op : Operation}
      (h : Appends P log log') (hpayload : P ws op.payload)
      (hparents : op.parentIds = (log'.readHead ws).toList)
      (happend : Returns OpLogOp.exec (appendOperation ws op (log'.readHead ws)) log' oid log'') :
      Appends P log log''

/-- A ref is moved. -/
def setRef (log : OpLog) (refName : String) (oid : GitOid) : OpLog :=
  { log with refs := log.refs.insert refName oid }

/-- The epoch and the branch are moved. -/
def moveEpoch (log : OpLog) (branch : String) (oid : GitOid) : OpLog :=
  setRef (setRef log epochCurrent oid) (branchRef branch) oid

/-- The workspaces on whose logs a merge is recorded. -/
def recorded (sources : List NamedWorkspace) (target : NamedWorkspace) : List NamedWorkspace :=
  if target ∈ sources then sources else sources ++ [target]

/-- Copies of the payload are recorded in the workspaces, and operations that are no epoch
operations in any. -/
def Copies (workspaces : List NamedWorkspace) (payload : OpPayload) (ws : NamedWorkspace)
    (recordedPayload : OpPayload) : Prop :=
  ws ∈ workspaces ∧ recordedPayload = payload ∨ isEpochOp recordedPayload = false

/-- The logs and the refs of a repository, and the way back from the last movement of its
epoch. -/
structure History where
  log : OpLog
  last : Option Toggle

inductive HistoryOp
  | merge
  | changeMerge
  | undo
  | other
  deriving DecidableEq, Repr

/-- What happens in a repository; `target` is the default workspace. -/
inductive HistoryStep (branch : String) (target : NamedWorkspace) :
    HistoryOp → History → History → Prop
  /-- A merge moves the epoch and the branch, then it is recorded. -/
  | merge {s : History} {log' : OpLog} {sources : List NamedWorkspace} {before after : EpochId}
      (hbefore : s.log.refs.lookup epochCurrent = some before.oid)
      (hrecord : Appends (Copies (recorded sources target) (.merge sources before after))
        (moveEpoch s.log branch after.oid) log') :
      HistoryStep branch target .merge s ⟨log', some ⟨.undo, before, after⟩⟩
  /-- A merge into a change moves the branch of the change only; it is recorded like any merge. -/
  | changeMerge {s : History} {log' : OpLog} {sources : List NamedWorkspace}
      {before after : EpochId} {change : String} (hchange : change ≠ branch)
      (hrecord : Appends (Copies (recorded sources target) (.merge sources before after))
        (setRef s.log (branchRef change) after.oid) log') :
      HistoryStep branch target .changeMerge s ⟨log', s.last⟩
  /-- An undo that nothing speaks against moves the epoch and the branch as it planned. -/
  | undo {s : History} {log' : OpLog} {heads : List String} {around : Surroundings} {plan : Plan}
      (hheads : IsHeadListing s.log heads)
      (hplan : buildPlan s.log.store branch (collectRepoOps s.log heads) none = .ok plan)
      (hrails : (gatherRefusals s.log.refs around plan).hard = [])
      (hrecord : Appends (Copies [target] (compensation plan))
        (moveEpoch s.log branch plan.movingTo.oid) log') :
      HistoryStep branch target .undo s ⟨log', some plan.toToggle.flip⟩
  /-- Everything else records no epoch operation and leaves the epoch and the branch. -/
  | other {s : History} {log' : OpLog}
      (hstore : ∀ oid op, s.log.store.nodes.lookup oid = some op →
        log'.store.nodes.lookup oid = some op)
      (hepoch : log'.refs.lookup epochCurrent = s.log.refs.lookup epochCurrent)
      (hbranch : log'.refs.lookup (branchRef branch) = s.log.refs.lookup (branchRef branch))
      (hentries : ∀ oid op, IsEpochEntry log' oid op → IsEpochEntry s.log oid op) :
      HistoryStep branch target .other s ⟨log', s.last⟩

/-- The repository after any number of steps, from one whose epoch has not moved yet. -/
inductive Reaches (branch : String) (target : NamedWorkspace)
    (P : HistoryOp → OpLog → OpLog → Prop) : History → Prop
  | start (log : OpLog) : Reaches branch target P ⟨log, none⟩
  | step {s s' : History} {op : HistoryOp} (h : Reaches branch target P s)
      (hstep : HistoryStep branch target op s s') (hP : P op s.log s'.log) :
      Reaches branch target P s'

/-- An undo without an id acts on the last movement of the epoch, and neither the epoch nor the
branch speaks against it. -/
def TogglesLast (branch : String) (log : OpLog) (last : Toggle) : Prop :=
  ∀ heads, IsHeadListing log heads → ∃ plan,
    buildPlan log.store branch (collectRepoOps log heads) none = .ok plan ∧
      plan.toToggle = last ∧ epochRail log.refs plan.movingFrom.oid = [] ∧
        branchRail log.refs plan.branch plan.movingFrom.oid = []

/-- Something that is recorded comes after all that was listed. -/
def RecordsAhead (log log' : OpLog) : Prop :=
  ∃ oid op, IsEpochEntry log' oid op ∧ ¬ IsEpochEntry log oid op ∧
    ∀ oid' op', IsEpochEntry log oid' op' → opKey op'.timestamp oid' < opKey op.timestamp oid

/-- What was the newest of the listing stays so. -/
def KeepsNewest (log log' : OpLog) : Prop :=
  ∀ oid op, IsNewest log oid op → IsNewest log' oid op

/-- The record of a movement comes after everything else, and no other record does. -/
def InOrder : HistoryOp → OpLog → OpLog → Prop
  | .merge => RecordsAhead
  | .undo => RecordsAhead
  | .changeMerge => KeepsNewest
  | .other => KeepsNewest

/-! ### What the logs list -/

theorem prefix_workspaceHeadRef (ws : NamedWorkspace) :
    headRefPrefix.toList <+: (workspaceHeadRef ws).toList :=
  ⟨ws.asStr.toList, (String.toList_append ..).symm⟩

theorem headRef_ne_epochCurrent (ws : NamedWorkspace) : workspaceHeadRef ws ≠ epochCurrent := by
  intro h
  have hprefix := prefix_workspaceHeadRef ws
  rw [h] at hprefix
  exact absurd hprefix (by decide +kernel)

theorem headRef_ne_branchRef (ws : NamedWorkspace) (branch : String) :
    workspaceHeadRef ws ≠ branchRef branch := by
  intro h
  have hprefix := prefix_workspaceHeadRef ws
  have hbranch : "refs/heads/".toList <+: (branchRef branch).toList :=
    ⟨branch.toList, (String.toList_append ..).symm⟩
  rw [h] at hprefix
  rcases List.prefix_or_prefix_of_prefix hprefix hbranch with hle | hle
  · exact absurd hle (by decide +kernel)
  · exact absurd hle (by decide +kernel)

section Listed

variable {log log' : OpLog} {refName branch : String} {oid x : GitOid} {op y : Operation}
  {ws : NamedWorkspace} {store : OpStore}

/-- A ref that is no head does not matter to what is listed. -/
theorem listed_setRef (h : ∀ ws, workspaceHeadRef ws ≠ refName) :
    (setRef log refName oid).Listed x y ↔ log.Listed x y := by
  have hread (ws : NamedWorkspace) : (setRef log refName oid).readHead ws = log.readHead ws := by
    rw [OpLog.readHead, setRef, FiniteMap.lookup_insert, if_neg (h ws)]
    rfl
  simp only [OpLog.Listed, hread]
  rfl

theorem listed_moveEpoch : (moveEpoch log branch oid).Listed x y ↔ log.Listed x y := by
  rw [moveEpoch, listed_setRef fun ws => headRef_ne_branchRef ws branch,
    listed_setRef headRef_ne_epochCurrent]

/-- What leads to a head that is stored already is listed. -/
theorem listed_of_old {head : GitOid} (hadds : log.store.Adds oid op store)
    (hy : store.nodes.lookup x = some y) (hhead : log.readHead ws = some head)
    (hstored : head ∈ log.store.nodes) (hanc : store.IsAncestor x head) : log.Listed x y := by
  have hold := hadds.isAncestor_of_mem hstored hanc
  obtain ⟨node, hnode⟩ := Finmap.mem_iff.mp (hold.mem hstored)
  obtain rfl := Option.some.inj ((hadds.lookup hnode).symm.trans hy)
  exact ⟨hnode, ws, head, hhead, hstored, hold⟩

/-- An operation on top of a log leads to itself and to what was listed. -/
theorem listed_of_self (hparents : op.parentIds = (log.readHead ws).toList)
    (hadds : log.store.Adds oid op store) (hy : store.nodes.lookup x = some y)
    (hanc : store.IsAncestor x oid) : log.Listed x y ∨ x = oid ∧ y = op := by
  by_cases hx : x = oid
  · subst hx
    exact .inr ⟨rfl, Option.some.inj (hy.symm.trans hadds.lookup_self)⟩
  · obtain ⟨parent, ⟨node, hnode, hparent⟩, hrest⟩ := hanc.of_ne hx
    obtain rfl := Option.some.inj (hadds.lookup_self.symm.trans hnode)
    have hold : parent ∈ log.store.nodes := by
      rcases hadds with ⟨hop, -⟩ | ⟨-, hstored, -⟩
      · exact log.store.closed oid op hop parent hparent
      · exact hstored parent hparent
    rw [hparents, Option.mem_toList] at hparent
    exact .inl (listed_of_old hadds hy hparent hold hrest)

/-- An operation on top of a log adds itself at most. -/
theorem listed_of_stored (hparents : op.parentIds = (log.readHead ws).toList)
    (hadds : log.store.Adds oid op store) (h : OpLog.Listed { log with store } x y) :
    log.Listed x y ∨ x = oid ∧ y = op := by
  obtain ⟨hy, ws', head, hhead, hstored, hanc⟩ := h
  by_cases hold : head ∈ log.store.nodes
  · exact .inl (listed_of_old hadds hy hhead hold hanc)
  · obtain rfl : head = oid := by
      rcases hadds with ⟨-, rfl⟩ | ⟨hnew, hparents', rfl⟩
      · exact absurd hstored hold
      · have hadded : head ∈ (log.store.add oid op hnew hparents').nodes := hstored
        exact (NodeStore.mem_add.mp hadded).resolve_right hold
    exact listed_of_self hparents hadds hy hanc

theorem listed_of_appended (hparents : op.parentIds = (log.readHead ws).toList)
    (happend : Returns OpLogOp.exec (appendOperation ws op (log.readHead ws)) log oid log')
    (h : log'.Listed x y) : log.Listed x y ∨ x = oid ∧ y = op := by
  obtain ⟨store, hadds, -, rfl⟩ := returns_appendOperation.mp happend
  obtain ⟨hy, ws', head, hhead, hstored, hanc⟩ := h
  rw [OpLog.readHead, FiniteMap.lookup_insert] at hhead
  split_ifs at hhead with hws
  · obtain rfl := Option.some.inj hhead
    exact listed_of_self hparents hadds hy hanc
  · exact listed_of_stored hparents hadds ⟨hy, ws', head, hhead, hstored, hanc⟩

end Listed

namespace Appends

variable {P : NamedWorkspace → OpPayload → Prop} {log log' : OpLog}

/-- What is stored stays stored. -/
theorem lookup (h : Appends P log log') {oid : GitOid} {op : Operation}
    (hop : log.store.nodes.lookup oid = some op) : log'.store.nodes.lookup oid = some op := by
  induction h with
  | refl => exact hop
  | stored _ _ _ hadds ih => exact hadds.lookup ih
  | appended _ _ _ happend ih =>
    obtain ⟨store, hadds, -, rfl⟩ := returns_appendOperation.mp happend
    exact hadds.lookup ih

/-- The refs that are no heads stay where they are. -/
theorem refs_lookup (h : Appends P log log') {refName : String}
    (hne : ∀ ws, workspaceHeadRef ws ≠ refName) :
    log'.refs.lookup refName = log.refs.lookup refName := by
  induction h with
  | refl => rfl
  | stored _ _ _ _ ih => exact ih
  | @appended _ _ ws _ _ _ _ _ happend ih =>
    obtain ⟨store, -, -, rfl⟩ := returns_appendOperation.mp happend
    rw [FiniteMap.lookup_insert, if_neg (hne ws).symm]
    exact ih

/-- What is listed then was listed or is recorded. -/
theorem listed (h : Appends P log log') {oid : GitOid} {op : Operation}
    (hop : log'.Listed oid op) : log.Listed oid op ∨ ∃ ws, P ws op.payload := by
  induction h with
  | refl => exact .inl hop
  | @stored _ ws _ _ _ _ hpayload hparents hadds ih =>
    rcases listed_of_stored hparents hadds hop with hop | ⟨-, rfl⟩
    · exact ih hop
    · exact .inr ⟨ws, hpayload⟩
  | @appended _ _ ws _ _ _ hpayload hparents happend ih =>
    rcases listed_of_appended hparents happend hop with hop | ⟨-, rfl⟩
    · exact ih hop
    · exact .inr ⟨ws, hpayload⟩

end Appends

/-- The epoch operations are those that were listed and the copies of what is recorded. -/
theorem entry_of_copies {log log' : OpLog} {workspaces : List NamedWorkspace} {payload : OpPayload}
    (h : Appends (Copies workspaces payload) log log') {oid : GitOid} {op : Operation}
    (hop : IsEpochEntry log' oid op) : IsEpochEntry log oid op ∨ op.payload = payload := by
  rcases h.listed hop.1 with hlisted | ⟨ws, ⟨-, hcopy⟩ | hno⟩
  · exact .inl ⟨hlisted, hop.2⟩
  · exact .inr hcopy
  · exact absurd hop.2 (by simp [hno])

/-! ### Runs -/

/-- The epoch and the branch, if there is one, are where the last movement left them. -/
def AtEpoch (branch : String) (log : OpLog) (last : Toggle) : Prop :=
  log.refs.lookup epochCurrent = some last.movingFrom.oid ∧
    ∀ tip, log.refs.lookup (branchRef branch) = some tip → tip = last.movingFrom.oid

/-- The operation is about the last movement. -/
def IsAbout (store : OpStore) (branch : String) (last : Toggle) (oid : GitOid) (op : Operation) :
    Prop :=
  ∃ plan, planFor store branch oid op.payload = .ok plan ∧ plan.toToggle = last

theorem branch_of_planFor {store : OpStore} {branch : String} {oid : GitOid} {payload : OpPayload}
    {plan : Plan} (h : planFor store branch oid payload = .ok plan) : plan.branch = branch := by
  unfold planFor at h
  grind

/-- An undo acts on the last movement exactly when the newest operation is about it. -/
theorem togglesLast_iff {branch : String} {log : OpLog} {last : Toggle}
    (hat : AtEpoch branch log last) : TogglesLast branch log last ↔
      ∃ oid op, IsNewest log oid op ∧ IsAbout log.store branch last oid op := by
  constructor
  · intro h
    obtain ⟨heads, hheads⟩ := exists_isHeadListing log
    obtain ⟨plan, hplan, hlast, -⟩ := h heads hheads
    obtain ⟨oid, op, hnewest, hfor⟩ := (buildPlan_none_iff hheads).mp hplan
    exact ⟨oid, op, hnewest, plan, hfor, hlast⟩
  · rintro ⟨oid, op, hnewest, plan, hfor, rfl⟩ heads hheads
    refine ⟨plan, (buildPlan_none_iff hheads).mpr ⟨oid, op, hnewest, hfor⟩, rfl,
      epochRail_eq_nil_iff.mpr hat.1, branchRail_eq_nil_iff.mpr ?_⟩
    rw [branch_of_planFor hfor]
    exact hat.2

section Steps

variable {branch : String} {target : NamedWorkspace} {s s' : History} {op : HistoryOp}

theorem atEpoch_of_appends {P : NamedWorkspace → OpPayload → Prop} {log log' : OpLog} {t : Toggle}
    (h : Appends P (moveEpoch log branch t.movingFrom.oid) log') : AtEpoch branch log' t := by
  rw [AtEpoch, h.refs_lookup headRef_ne_epochCurrent,
    h.refs_lookup fun ws => headRef_ne_branchRef ws branch]
  simp only [moveEpoch, setRef]
  rw [Finmap.lookup_insert, FiniteMap.lookup_insert, if_neg (branchRef_ne_epochCurrent branch).symm,
    Finmap.lookup_insert]
  exact ⟨rfl, fun tip htip => (Option.some.inj htip).symm⟩

theorem branchRef_inj {a b : String} (h : branchRef a = branchRef b) : a = b := by
  have hlist := congrArg String.toList h
  rw [branchRef, branchRef, String.toList_append, String.toList_append] at hlist
  exact String.toList_injective (List.append_cancel_left hlist)

/-- The epoch and the branch are where the last movement left them. -/
theorem atEpoch_step (hstep : HistoryStep branch target op s s')
    (h : ∀ last, s.last = some last → AtEpoch branch s.log last) :
    ∀ last, s'.last = some last → AtEpoch branch s'.log last := by
  intro last hlast
  cases hstep with
  | merge _ hrecord =>
    obtain rfl := Option.some.inj hlast
    exact atEpoch_of_appends hrecord
  | changeMerge hchange hrecord =>
    rw [AtEpoch, hrecord.refs_lookup headRef_ne_epochCurrent,
      hrecord.refs_lookup fun ws => headRef_ne_branchRef ws branch]
    simp only [setRef]
    rw [FiniteMap.lookup_insert, if_neg (branchRef_ne_epochCurrent _).symm, FiniteMap.lookup_insert,
      if_neg fun heq => hchange (branchRef_inj heq).symm]
    exact h last hlast
  | undo _ _ _ hrecord =>
    obtain rfl := Option.some.inj hlast
    rw [← Toggle.movingFrom_flip] at hrecord
    exact atEpoch_of_appends hrecord
  | other _ hepoch hbranch _ =>
    rw [AtEpoch, hepoch, hbranch]
    exact h last hlast

/-- A record that comes after all that was listed makes the newest operation a record. -/
theorem newest_of_recordsAhead {log log' : OpLog} {payload : OpPayload} (hahead : RecordsAhead log log')
    (hentries : ∀ oid op, IsEpochEntry log' oid op → IsEpochEntry log oid op ∨ op.payload = payload) :
    ∃ oid op, IsNewest log' oid op ∧ op.payload = payload := by
  obtain ⟨oid, op, hentry, -, hafter⟩ := hahead
  obtain ⟨oid', op', hnewest⟩ := exists_isNewest hentry
  refine ⟨oid', op', hnewest, (hentries oid' op' hnewest.1).resolve_left fun hold => ?_⟩
  exact absurd (hnewest.2 oid op hentry) (not_le_of_gt (hafter oid' op' hold))

/-- After an undo the newest operation is about it. -/
theorem isAbout_undo {heads : List String} {plan : Plan} {log log' : OpLog} {oid : GitOid}
    {op : Operation} (hheads : IsHeadListing log heads)
    (hplan : buildPlan log.store branch (collectRepoOps log heads) none = .ok plan)
    (hstore : ∀ oid op, log.store.nodes.lookup oid = some op → log'.store.nodes.lookup oid = some op)
    (hop : op.payload = compensation plan) : IsAbout log'.store branch plan.toToggle.flip oid op := by
  obtain ⟨oid', op', hnewest, hfor⟩ := (buildPlan_none_iff hheads).mp hplan
  obtain ⟨merge, hmerge, hpayload⟩ := merge_of_planFor hnewest.1.1.1 hfor
  refine ⟨⟨plan.toToggle.flip, plan.mergeOpId, plan.sources, branch⟩, ?_, rfl⟩
  rw [hop]
  exact planFor_compensation (hstore _ _ hmerge) hpayload

/-- A step that keeps the order leaves the newest operation about the last movement. -/
theorem newest_step (hstep : HistoryStep branch target op s s') (horder : InOrder op s.log s'.log)
    (h : ∀ last, s.last = some last →
      ∃ oid op, IsNewest s.log oid op ∧ IsAbout s.log.store branch last oid op) :
    ∀ last, s'.last = some last →
      ∃ oid op, IsNewest s'.log oid op ∧ IsAbout s'.log.store branch last oid op := by
  intro last hlast
  cases hstep with
  | merge _ hrecord =>
    obtain rfl := Option.some.inj hlast
    obtain ⟨oid, op, hnewest, hop⟩ := newest_of_recordsAhead horder fun oid op hentry =>
      (entry_of_copies hrecord hentry).imp_left fun hold => ⟨listed_moveEpoch.mp hold.1, hold.2⟩
    exact ⟨oid, op, hnewest, _, by rw [hop, planFor], rfl⟩
  | changeMerge hchange hrecord =>
    obtain ⟨oid, op, hnewest, plan, hfor, heq⟩ := h last hlast
    exact ⟨oid, op, horder oid op hnewest, plan, planFor_mono (fun _ _ => hrecord.lookup) hfor, heq⟩
  | undo hheads hplan _ hrecord =>
    obtain rfl := Option.some.inj hlast
    obtain ⟨oid, op, hnewest, hop⟩ := newest_of_recordsAhead horder fun oid op hentry =>
      (entry_of_copies hrecord hentry).imp_left fun hold => ⟨listed_moveEpoch.mp hold.1, hold.2⟩
    exact ⟨oid, op, hnewest, isAbout_undo hheads hplan (fun _ _ => hrecord.lookup) hop⟩
  | other hstore _ _ _ =>
    obtain ⟨oid, op, hnewest, plan, hfor, heq⟩ := h last hlast
    exact ⟨oid, op, horder oid op hnewest, plan, planFor_mono hstore hfor, heq⟩

end Steps

/-- In every run of merges, merges into change branches, undos and redos whose steps keep the
listing in the order of events, an undo acts on the last movement of the epoch. -/
theorem togglesLast_of_run {branch : String} {target : NamedWorkspace} {s : History}
    (h : Reaches branch target InOrder s) :
    ∀ last, s.last = some last → TogglesLast branch s.log last := by
  have hkept : (∀ last, s.last = some last → AtEpoch branch s.log last) ∧
      ∀ last, s.last = some last →
        ∃ oid op, IsNewest s.log oid op ∧ IsAbout s.log.store branch last oid op := by
    induction h with
    | start log => simp
    | step _ hstep horder ih =>
      exact ⟨atEpoch_step hstep ih.1, newest_step hstep horder ih.2⟩
  exact fun last hlast => (togglesLast_iff (hkept.1 last hlast)).mpr (hkept.2 last hlast)

/-! ### A merge into a change branch -/

def sampleDefault : NamedWorkspace := ⟨⟨"default"⟩, by decide +kernel⟩

def sampleAlice : NamedWorkspace := ⟨⟨"alice"⟩, by decide +kernel⟩

/-- A repository with two workspaces. -/
def createdLogs : OpLog :=
  ((OpLog.mk NodeStore.empty (Finmap.singleton epochCurrent (sampleOid 10))).appended sampleAlice
    (sampleOid 1) ⟨[], sampleAlice, "2026-02-19T12:00:00.000Z", .create ⟨sampleOid 10⟩⟩
    (by decide) (by decide)).appended sampleDefault (sampleOid 2)
    ⟨[], sampleDefault, "2026-02-19T12:00:00.000Z", .create ⟨sampleOid 10⟩⟩
    (by decide) (by decide)

/-- The record of a merge of the first workspace. -/
def mergeRecord (parent : ℕ) (ws : NamedWorkspace) (timestamp : String) (before after : ℕ) :
    Operation :=
  ⟨[sampleOid parent], ws, timestamp, .merge [sampleAlice] ⟨sampleOid before⟩ ⟨sampleOid after⟩⟩

/-- The first workspace is merged. -/
def trunkMergedLogs : OpLog :=
  ((moveEpoch createdLogs "main" (sampleOid 11)).appended sampleAlice (sampleOid 3)
    (mergeRecord 1 sampleAlice "2026-02-19T12:01:00.000Z" 10 11)
    (by decide) (by decide)).appended sampleDefault (sampleOid 4)
    (mergeRecord 2 sampleDefault "2026-02-19T12:01:00.001Z" 10 11) (by decide) (by decide)

/-- Then it is merged into the branch of a change. -/
def changeMergedLogs : OpLog :=
  ((setRef trunkMergedLogs (branchRef "feat/c1") (sampleOid 12)).appended sampleAlice (sampleOid 5)
    (mergeRecord 3 sampleAlice "2026-02-19T12:02:00.000Z" 11 12)
    (by decide) (by decide)).appended sampleDefault (sampleOid 6)
    (mergeRecord 4 sampleDefault "2026-02-19T12:02:00.001Z" 11 12) (by decide) (by decide)

theorem appends_appended {P : NamedWorkspace → OpPayload → Prop} {log log' : OpLog}
    {ws : NamedWorkspace} {oid head : GitOid} {op : Operation} {hnew : oid ∉ log'.store.nodes}
    {hparents : ∀ parent ∈ op.parentIds, parent ∈ log'.store.nodes} (h : Appends P log log')
    (hpayload : P ws op.payload) (hhead : log'.readHead ws = some head) (hop : op.parentIds = [head])
    (hreal : head.bits ≠ 0) : Appends P log (log'.appended ws oid op hnew hparents) := by
  refine h.appended hpayload (by rw [hhead, hop]; rfl) (returns_appended fun head' hhead' => ?_)
  rw [hhead] at hhead'
  exact Option.some.inj hhead' ▸ hreal

theorem trunkMerged_appends : Appends
    (Copies (recorded [sampleAlice] sampleDefault)
      (.merge [sampleAlice] ⟨sampleOid 10⟩ ⟨sampleOid 11⟩))
    (moveEpoch createdLogs "main" (sampleOid 11)) trunkMergedLogs :=
  appends_appended
    (appends_appended (.refl _) (.inl ⟨by decide +kernel, rfl⟩) (by rfl) (by rfl) (by decide))
    (.inl ⟨by decide +kernel, rfl⟩) (by rfl) (by rfl) (by decide)

theorem mem_entries_of_entry {log : OpLog} {oid : GitOid} {op : Operation}
    (h : IsEpochEntry log oid op) : (⟨oid, op⟩ : Σ _, Operation) ∈ log.store.nodes.entries :=
  Finmap.mem_lookup_iff.mp h.1.1

theorem trunkMerged_recordsAhead : RecordsAhead createdLogs trunkMergedLogs := by
  have hnone : ∀ e ∈ createdLogs.store.nodes.entries, isEpochOp e.2.payload = false := by
    decide +kernel
  have hentry : IsEpochEntry trunkMergedLogs (sampleOid 4)
      (mergeRecord 2 sampleDefault "2026-02-19T12:01:00.001Z" 10 11) :=
    ⟨⟨rfl, sampleDefault, sampleOid 4, rfl, by decide +kernel, .refl _⟩, rfl⟩
  refine ⟨_, _, hentry, fun hold => ?_, fun oid op hold => ?_⟩
  · exact absurd hold.2 (by simp [hnone _ (mem_entries_of_entry hold)])
  · exact absurd hold.2 (by simp [hnone _ (mem_entries_of_entry hold)])

theorem trunkMerged_step : HistoryStep "main" sampleDefault .merge ⟨createdLogs, none⟩
    ⟨trunkMergedLogs, some ⟨.undo, ⟨sampleOid 10⟩, ⟨sampleOid 11⟩⟩⟩ :=
  .merge rfl trunkMerged_appends

/-- An undo after a merge is going to take it back. -/
theorem togglesLast_trunkMerged :
    Reaches "main" sampleDefault InOrder
      ⟨trunkMergedLogs, some ⟨.undo, ⟨sampleOid 10⟩, ⟨sampleOid 11⟩⟩⟩ ∧
    TogglesLast "main" trunkMergedLogs ⟨.undo, ⟨sampleOid 10⟩, ⟨sampleOid 11⟩⟩ :=
  ⟨.step (.start createdLogs) trunkMerged_step trunkMerged_recordsAhead,
    togglesLast_of_run (.step (.start createdLogs) trunkMerged_step trunkMerged_recordsAhead) _ rfl⟩

theorem changeMerged_appends : Appends
    (Copies (recorded [sampleAlice] sampleDefault)
      (.merge [sampleAlice] ⟨sampleOid 11⟩ ⟨sampleOid 12⟩))
    (setRef trunkMergedLogs (branchRef "feat/c1") (sampleOid 12)) changeMergedLogs :=
  appends_appended
    (appends_appended (.refl _) (.inl ⟨by decide +kernel, rfl⟩) (by rfl) (by rfl) (by decide))
    (.inl ⟨by decide +kernel, rfl⟩) (by rfl) (by rfl) (by decide)

/-- After a merge into the branch of a change the newest operation is not about the last movement
of the epoch. -/
theorem not_togglesLast_changeMerged :
    ¬ TogglesLast "main" changeMergedLogs ⟨.undo, ⟨sampleOid 10⟩, ⟨sampleOid 11⟩⟩ := by
  intro h
  obtain ⟨heads, hheads⟩ := exists_isHeadListing changeMergedLogs
  obtain ⟨plan, hplan, hlast, -⟩ := h heads hheads
  obtain ⟨oid, op, hnewest, hfor⟩ := (buildPlan_none_iff hheads).mp hplan
  have hentry : IsEpochEntry changeMergedLogs (sampleOid 6)
      (mergeRecord 4 sampleDefault "2026-02-19T12:02:00.001Z" 11 12) :=
    ⟨⟨rfl, sampleDefault, sampleOid 6, rfl, by decide +kernel, .refl _⟩, rfl⟩
  have hgreatest : ∀ e ∈ changeMergedLogs.store.nodes.entries,
      opKey "2026-02-19T12:02:00.001Z" (sampleOid 6) ≤ opKey e.2.timestamp e.1 →
        e.1 = sampleOid 6 := by
    decide +kernel
  obtain rfl : oid = sampleOid 6 :=
    hgreatest _ (mem_entries_of_entry hnewest.1) (hnewest.2 _ _ hentry)
  obtain rfl := Option.some.inj (hnewest.1.1.1.symm.trans hentry.1.1)
  obtain rfl := Except.ok.inj hfor
  have hbefore : (⟨sampleOid 11⟩ : EpochId) = ⟨sampleOid 10⟩ := congrArg Toggle.epochBefore hlast
  exact absurd hbefore (by decide)

/-- An undo does not always act on the last movement of the epoch. -/
theorem not_togglesLast_of_reaches : ¬ ∀ s, Reaches "main" sampleDefault (fun _ _ _ => True) s →
    ∀ last, s.last = some last → TogglesLast "main" s.log last := by
  intro h
  refine not_togglesLast_changeMerged (h ⟨changeMergedLogs, _⟩ ?_ _ rfl)
  exact .step (.step (.start createdLogs) trunkMerged_step trivial)
    (.changeMerge (by decide) changeMerged_appends) trivial

end Maw.Undo
