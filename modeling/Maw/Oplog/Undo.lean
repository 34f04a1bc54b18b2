import Maw.Oplog.RepoOps
import Maw.Recovery.DestroyRecords

/-!
# Undoing the last merge

An undo without an id takes the first epoch operation of the listing, a merge or the record of an
earlier undo or redo, and plans to move the epoch and the branch back, or forward again. It
refuses when the epoch or the branch is not where that operation left it. What it did is recorded
as an operation in turn.

## Main definitions

* `Toggle`, `Plan` — a movement of the epoch, and what an undo is going to do.
* `buildPlan`, `gatherRefusals` — the plan and what speaks against it.
* `compensation` — the record of an undo.

## Main results

* `buildPlan_none_iff` — the plan comes from the epoch operation with the greatest key.
* `planFor_compensation` — after the record of an undo the plan is to move back.
* `epochRail_eq_nil_iff`, `branchRail_eq_nil_iff` — when the refs do not speak against a plan.
-/

namespace Maw.Undo

open Oplog

/-- Whether the string begins with the other one. -/
def startsWith (s pre : String) : Bool := pre.toList.isPrefixOf s.toList

inductive Direction
  | undo
  | redo
  deriving DecidableEq, Repr

/-- A movement of the epoch over a merge. -/
structure Toggle where
  direction : Direction
  epochBefore : EpochId
  epochAfter : EpochId
  deriving DecidableEq, Repr

namespace Toggle

/-- The epoch that is moved away from. -/
def movingFrom (t : Toggle) : EpochId :=
  match t.direction with
  | .undo => t.epochAfter
  | .redo => t.epochBefore

def movingTo (t : Toggle) : EpochId :=
  match t.direction with
  | .undo => t.epochBefore
  | .redo => t.epochAfter

/-- The movement back. -/
def flip (t : Toggle) : Toggle :=
  match t.direction with
  | .undo => { t with direction := .redo }
  | .redo => { t with direction := .undo }

@[simp]
theorem movingFrom_flip (t : Toggle) : t.flip.movingFrom = t.movingTo := by
  obtain ⟨_ | _, _, _⟩ := t <;> rfl

end Toggle

/-- What an undo is going to do. -/
structure Plan extends Toggle where
  mergeOpId : GitOid
  sources : List NamedWorkspace
  branch : String

inductive UndoError
  | noMatch (id : String)
  | ambiguous (id : String) (found : ℕ)
  | notMerge (id : GitOid)
  | nothingToUndo
  | unreadableMerge (id : GitOid)
  | noMergeCompensated
  deriving DecidableEq, Repr

def undoTag : String := "maw-undo"

def redoTag : String := "maw-redo"

/-- The operations that an undo goes back and forth over. -/
def isEpochOp : OpPayload → Bool
  | .merge _ _ _ => true
  | .compensate _ reason => startsWith reason undoTag || startsWith reason redoTag
  | _ => false

/-- The plan for an epoch operation. -/
def planFor (store : OpStore) (branch : String) (id : GitOid) : OpPayload → Except UndoError Plan
  | .merge sources epochBefore epochAfter =>
    .ok ⟨⟨.undo, epochBefore, epochAfter⟩, id, sources, branch⟩
  | .compensate targetOp reason =>
    match store.nodes.lookup targetOp with
    | none => .error (.unreadableMerge targetOp)
    | some op =>
      match op.payload with
      | .merge sources epochBefore epochAfter =>
        let direction := if startsWith reason undoTag then .redo else .undo
        .ok ⟨⟨direction, epochBefore, epochAfter⟩, targetOp, sources, branch⟩
      | _ => .error .noMergeCompensated
  | _ => .error .nothingToUndo

/-- The operation to act on and the direction. -/
def buildPlan (store : OpStore) (branch : String) (ops : List RepoOp) (opId : Option String) :
    Except UndoError Plan :=
  match opId with
  | some id =>
    match ops.filter fun op => startsWith op.id.asStr id with
    | [] => .error (.noMatch id)
    | [op] =>
      match op.payload with
      | .merge sources epochBefore epochAfter =>
        .ok ⟨⟨.undo, epochBefore, epochAfter⟩, op.id, sources, branch⟩
      | _ => .error (.notMerge op.id)
    | found => .error (.ambiguous id found.length)
  | none =>
    match ops.find? fun op => isEpochOp op.payload with
    | none => .error .nothingToUndo
    | some op => planFor store branch op.id op.payload

/-- The first digits of an id, as messages show it. -/
def short (oid : GitOid) : String := String.ofList (oid.asStr.toList.take 12)

/-- The record of an undo or a redo. -/
def compensation (plan : Plan) : OpPayload :=
  let merge := " merge " ++ short plan.mergeOpId ++ ": "
  .compensate plan.mergeOpId <|
    match plan.direction with
    | .undo => undoTag ++ (merge ++ "restored epoch " ++ short plan.epochBefore.oid ++
        " (undid merge to " ++ short plan.epochAfter.oid ++ ")")
    | .redo => redoTag ++ (merge ++ "reapplied merge to epoch " ++ short plan.epochAfter.oid)

/-! ### Refusals -/

inductive Refusal
  | noEpoch
  | epochAdvanced (current expected : GitOid)
  | branchDiverged (branch : String) (tip expected : GitOid)
  | pushed (branch : String) (remote : GitOid)
  | sourceRecreated (ws : NamedWorkspace)
  deriving DecidableEq

structure Refusals where
  hard : List Refusal
  forceRequired : List Refusal

/-- What a refusal looks at apart from the refs: ancestry of commits, which workspaces there are,
and why each name was last destroyed. -/
structure Surroundings where
  isAncestor : GitOid → GitOid → Bool
  wsExists : NamedWorkspace → Bool
  latestRecord : NamedWorkspace → Option DestroyReason

/-- The epoch must be where the operation left it. -/
def epochRail (refs : RefStore) (expected : GitOid) : List Refusal :=
  match refs.lookup epochCurrent with
  | none => [.noEpoch]
  | some current => if current = expected then [] else [.epochAdvanced current expected]

/-- The branch, if there is one, must be there too. -/
def branchRail (refs : RefStore) (branch : String) (expected : GitOid) : List Refusal :=
  match refs.lookup (branchRef branch) with
  | none => []
  | some tip => if tip = expected then [] else [.branchDiverged branch tip expected]

/-- The operation must not be pushed. -/
def pushedRail (refs : RefStore) (around : Surroundings) (branch : String) (expected : GitOid) :
    List Refusal :=
  match refs.lookup ("refs/remotes/origin/" ++ branch) with
  | none => []
  | some remote =>
    if remote = expected || around.isAncestor expected remote then [.pushed branch remote] else []

/-- A source that a merge destroyed must not be there again. -/
def sourceRail (around : Surroundings) (plan : Plan) : List Refusal :=
  match plan.direction with
  | .redo => []
  | .undo => (plan.sources.filter fun ws =>
      around.wsExists ws && around.latestRecord ws = some .mergeDestroy).map .sourceRecreated

def gatherRefusals (refs : RefStore) (around : Surroundings) (plan : Plan) : Refusals where
  hard := epochRail refs plan.movingFrom.oid ++ branchRail refs plan.branch plan.movingFrom.oid ++
    sourceRail around plan
  forceRequired := pushedRail refs around plan.branch plan.movingFrom.oid

/-! ### The plan -/

section Plans

variable {store store' : OpStore} {branch : String} {id : GitOid} {payload : OpPayload} {plan : Plan}

@[simp]
theorem startsWith_append (pre rest : String) : startsWith (pre ++ rest) pre = true := by
  rw [startsWith, String.toList_append, List.isPrefixOf_iff_prefix]
  exact List.prefix_append _ _

theorem startsWith_redo_undo (rest : String) : startsWith (redoTag ++ rest) undoTag = false := by
  rw [startsWith, String.toList_append]
  rfl

/-- The plan for a stored operation names the merge that it is about. -/
theorem merge_of_planFor {op : Operation} (hop : store.nodes.lookup id = some op)
    (h : planFor store branch id op.payload = .ok plan) :
    ∃ merge, store.nodes.lookup plan.mergeOpId = some merge ∧
      merge.payload = .merge plan.sources plan.epochBefore plan.epochAfter := by
  unfold planFor at h
  grind

/-- After the record of an undo the plan is to move back. -/
theorem planFor_compensation {merge : Operation}
    (hmerge : store.nodes.lookup plan.mergeOpId = some merge)
    (hpayload : merge.payload = .merge plan.sources plan.epochBefore plan.epochAfter) :
    planFor store branch id (compensation plan) =
      .ok ⟨plan.toToggle.flip, plan.mergeOpId, plan.sources, branch⟩ := by
  obtain ⟨⟨direction, before, after⟩, mergeOpId, sources, branch'⟩ := plan
  cases direction with
  | undo =>
    simp only [compensation, planFor, hmerge, hpayload, startsWith_append, if_true]
    rfl
  | redo =>
    simp only [compensation, planFor, hmerge, hpayload, startsWith_redo_undo]
    rfl

/-- A larger store gives the same plan. -/
theorem planFor_mono
    (hstore : ∀ oid op, store.nodes.lookup oid = some op → store'.nodes.lookup oid = some op)
    (h : planFor store branch id payload = .ok plan) :
    planFor store' branch id payload = .ok plan := by
  unfold planFor at h ⊢
  grind

end Plans

section Newest

variable {log : OpLog} {heads : List String} {branch : String} {oid : GitOid} {op : Operation}

/-- The operation is a listed epoch operation. -/
def IsEpochEntry (log : OpLog) (oid : GitOid) (op : Operation) : Prop :=
  log.Listed oid op ∧ isEpochOp op.payload = true

/-- The operation is the listed epoch operation with the greatest key. -/
def IsNewest (log : OpLog) (oid : GitOid) (op : Operation) : Prop :=
  IsEpochEntry log oid op ∧ ∀ oid' op', IsEpochEntry log oid' op' →
    opKey op'.timestamp oid' ≤ opKey op.timestamp oid

/-- There is one newest operation. -/
theorem IsNewest.unique {oid' : GitOid} {op' : Operation} (h : IsNewest log oid op)
    (h' : IsNewest log oid' op') : oid = oid' ∧ op = op' := by
  have hkey := le_antisymm (h'.2 oid op h.1) (h.2 oid' op' h'.1)
  have hid : oid.asStr = oid'.asStr := congrArg (fun k => (ofLex k).2) hkey
  have hoid : oid = oid' := by
    rw [← Option.some_inj, ← GitOid.new_asStr, hid, GitOid.new_asStr]
  subst hoid
  exact ⟨rfl, Option.some.inj (h.1.1.1.symm.trans h'.1.1.1)⟩

/-- The first epoch operation of the listing is the newest one. -/
theorem find?_collectRepoOps (hheads : IsHeadListing log heads) {r : RepoOp}
    (h : (collectRepoOps log heads).find? (fun op => isEpochOp op.payload) = some r) :
    ∃ op, IsNewest log r.id op ∧ r.payload = op.payload := by
  obtain ⟨op, hlisted, htime, hpayload⟩ := isListed_of_mem (List.mem_of_find?_eq_some h)
  have hepoch : isEpochOp op.payload = true := by
    rw [← hpayload]
    simpa using List.find?_some h
  refine ⟨op, ⟨⟨hlisted, hepoch⟩, fun oid' op' hentry => ?_⟩, hpayload⟩
  obtain ⟨r', hr', hid, htime', hpayload'⟩ := exists_mem_collectRepoOps hheads hentry.1
  have hp : isEpochOp r'.payload = true := hpayload' ▸ hentry.2
  have hle := @KeyedSort.find?_of_sorted RepoOp (String ×ₗ String)ᵒᵈ _
    (fun r => OrderDual.toDual r.key) _ collectRepoOps_sorted _ _ _ h hr' hp
  rw [← hid, ← htime', ← htime]
  exact hle

/-- The plan comes from the epoch operation with the greatest key, in whatever order the heads are
listed. -/
theorem buildPlan_none_iff (hheads : IsHeadListing log heads) {plan : Plan} :
    buildPlan log.store branch (collectRepoOps log heads) none = .ok plan ↔
      ∃ oid op, IsNewest log oid op ∧ planFor log.store branch oid op.payload = .ok plan := by
  rw [buildPlan]
  cases hfind : (collectRepoOps log heads).find? fun op => isEpochOp op.payload with
  | none =>
    refine ⟨fun h => absurd h (by simp), ?_⟩
    rintro ⟨oid, op, hnewest, -⟩
    obtain ⟨r, hr, -, -, hpayload⟩ := exists_mem_collectRepoOps hheads hnewest.1.1
    exact absurd (hpayload ▸ hnewest.1.2) (by simpa using List.find?_eq_none.mp hfind r hr)
  | some r =>
    obtain ⟨op, hnewest, hpayload⟩ := find?_collectRepoOps hheads hfind
    simp only [hpayload]
    refine ⟨fun h => ⟨r.id, op, hnewest, h⟩, ?_⟩
    rintro ⟨oid', op', hnewest', hplan⟩
    obtain ⟨rfl, rfl⟩ := hnewest.unique hnewest'
    exact hplan

/-- The refs of heads can be listed. -/
theorem exists_isHeadListing (log : OpLog) : ∃ heads, IsHeadListing log heads :=
  ⟨(log.refs.keys.filter fun refName => headRefPrefix.toList <+: refName.toList).toList,
    fun refName => by simp [Finmap.mem_keys]⟩

/-- Of the listed epoch operations one is the newest. -/
theorem exists_isNewest (h : IsEpochEntry log oid op) : ∃ oid op, IsNewest log oid op := by
  obtain ⟨heads, hheads⟩ := exists_isHeadListing log
  obtain ⟨r, hr, -, -, hpayload⟩ := exists_mem_collectRepoOps hheads h.1
  cases hfind : (collectRepoOps log heads).find? fun op => isEpochOp op.payload with
  | none => exact absurd (hpayload ▸ h.2) (by simpa using List.find?_eq_none.mp hfind r hr)
  | some r =>
    obtain ⟨op, hnewest, -⟩ := find?_collectRepoOps hheads hfind
    exact ⟨r.id, op, hnewest⟩

end Newest

section Rails

variable {refs : RefStore} {branch : String} {expected : GitOid}

theorem epochRail_eq_nil_iff :
    epochRail refs expected = [] ↔ refs.lookup epochCurrent = some expected := by
  rw [epochRail]
  split
  · next h => simp [h]
  · next current h =>
    rw [h]
    split_ifs with heq
    · simp [heq]
    · simp [heq]

theorem branchRail_eq_nil_iff :
    branchRail refs branch expected = [] ↔
      ∀ tip, refs.lookup (branchRef branch) = some tip → tip = expected := by
  rw [branchRail]
  split
  · next h => simp [h]
  · next tip h =>
    rw [h]
    split_ifs with heq
    · simp [heq]
    · simp [heq]

end Rails

end Maw.Undo
