import Maw.Library.LastWrite
import Maw.Library.ExceptRun
import Maw.Oplog.Log

/-!
# Materialized views

The state of a workspace as its log says: its operations, oldest first, are applied to the empty
view. What a field of the view holds in the end was written by the last operation that writes
it.

## Main definitions

* `MaterializedView`, `applyOperation`, `materialize` — views and their replay.
* `MaterializedView.after` — the view after some operations, field by field.

## Main results

* `replay_eq` — a replay reads the patch sets of its snapshots, and no field of its view depends
  on more than the last write.
-/

namespace Maw.Oplog

open LastWrite

/-- The state of a workspace at its current head. -/
structure MaterializedView where
  workspaceId : NamedWorkspace
  epoch : Option EpochId
  patchSet : Option PatchSet
  patchSetOid : Option GitOid
  description : Option String
  annotations : FiniteMap String JsonObject
  opCount : ℕ
  isDestroyed : Bool

/-- The view of a workspace without operations. -/
def MaterializedView.empty (ws : NamedWorkspace) : MaterializedView where
  workspaceId := ws
  epoch := none
  patchSet := none
  patchSetOid := none
  description := none
  annotations := ∅
  opCount := 0
  isDestroyed := false

/-- How the patch set of a snapshot is read. -/
abbrev PatchSetReader := GitOid → Except ViewError PatchSet

/-- The effect of one operation on a view. -/
def applyOperation (readPatchSet : PatchSetReader) (view : MaterializedView) (op : Operation) :
    Except ViewError MaterializedView :=
  let view := { view with opCount := view.opCount + 1 }
  match op.payload with
  | .create epoch =>
    return { view with
      epoch := some epoch, patchSet := none, patchSetOid := none, isDestroyed := false }
  | .snapshot patchSetOid => do
    let ps ← readPatchSet patchSetOid
    return { view with patchSet := some ps, patchSetOid := some patchSetOid }
  | .compensate _ _ => return { view with patchSet := none, patchSetOid := none }
  | .merge _ _ epochAfter =>
    return { view with epoch := some epochAfter, patchSet := none, patchSetOid := none }
  | .describe message => return { view with description := some message }
  | .annotate key data => return { view with annotations := view.annotations.insert key data }
  | .destroy => return { view with isDestroyed := true }
  | .rebaseReplay _ _ _ | .conflictDetected _ _ _ _ _ | .conflictResolved _ _
  | .rebase _ _ _ _ _ _ _ => return view

/-- Replay operations, oldest first, on the empty view. -/
def materializeFromOps (ws : NamedWorkspace) (ops : List (GitOid × Operation))
    (readPatchSet : PatchSetReader) : Except ViewError MaterializedView :=
  ops.foldlM (fun view e => applyOperation readPatchSet view e.2) (.empty ws)

/-- Replay the log of a workspace. -/
def materialize (log : OpLog) (ws : NamedWorkspace) (readPatchSet : PatchSetReader) :
    Except ViewError MaterializedView := do
  let chain ← (log.walkChain ws none none).mapError .opLog
  chain.reverse.foldlM (fun view e => applyOperation readPatchSet view e.2) (.empty ws)

/-! ### What an operation writes -/

namespace OpPayload

def epochWrite : OpPayload → Option (Option EpochId)
  | create epoch => some (some epoch)
  | merge _ _ epochAfter => some (some epochAfter)
  | _ => none

def patchSetOidWrite : OpPayload → Option (Option GitOid)
  | create _ | compensate _ _ | merge _ _ _ => some none
  | snapshot patchSetOid => some (some patchSetOid)
  | _ => none

/-- The patch set that is written, as far as it can be read. -/
def patchSetWrite (readPatchSet : PatchSetReader) (payload : OpPayload) :
    Option (Option PatchSet) :=
  payload.patchSetOidWrite.map fun oid => oid.bind fun oid => (readPatchSet oid).toOption

theorem patchSetWrite_eq (readPatchSet : PatchSetReader) (payload : OpPayload) :
    payload.patchSetWrite readPatchSet =
      payload.patchSetOidWrite.map fun oid => oid.bind fun oid => (readPatchSet oid).toOption :=
  rfl

def descriptionWrite : OpPayload → Option (Option String)
  | describe message => some (some message)
  | _ => none

def destroyedWrite : OpPayload → Option Bool
  | create _ => some false
  | destroy => some true
  | _ => none

/-- What is written under a key of the annotations. -/
def annotationWrite (key : String) : OpPayload → Option (Option JsonObject)
  | annotate key' data => if key = key' then some (some data) else none
  | _ => none

/-- The annotations after the operation. -/
def annotated (annotations : FiniteMap String JsonObject) : OpPayload → FiniteMap String JsonObject
  | annotate key data => annotations.insert key data
  | _ => annotations

/-- Read the patch set of a snapshot. -/
def reads (readPatchSet : PatchSetReader) : OpPayload → Except ViewError Unit
  | snapshot patchSetOid => (readPatchSet patchSetOid).map fun _ => ()
  | _ => .ok ()

/-- Read the patch sets of snapshots, one after another. -/
def readAll (readPatchSet : PatchSetReader) : List OpPayload → Except ViewError Unit
  | [] => .ok ()
  | payload :: payloads => do
    payload.reads readPatchSet
    readAll readPatchSet payloads

theorem readAll_append (readPatchSet : PatchSetReader) (payloads payloads' : List OpPayload) :
    readAll readPatchSet (payloads ++ payloads') = (do
      readAll readPatchSet payloads
      readAll readPatchSet payloads') := by
  induction payloads with
  | nil => rfl
  | cons payload payloads ih =>
    rw [List.cons_append, readAll, ih, readAll, bind_assoc]

theorem lookup_annotated (annotations : FiniteMap String JsonObject) (payload : OpPayload)
    (key : String) :
    (payload.annotated annotations).lookup key =
      (payload.annotationWrite key).getD (annotations.lookup key) := by
  rcases payload <;> try rfl
  rw [annotated, annotationWrite, FiniteMap.lookup_insert]
  split_ifs <;> rfl

end OpPayload

namespace MaterializedView

/-- The view after operations with these payloads. -/
def after (readPatchSet : PatchSetReader) (v : MaterializedView) (payloads : List OpPayload) :
    MaterializedView where
  workspaceId := v.workspaceId
  epoch := lastWrite OpPayload.epochWrite v.epoch payloads
  patchSet := lastWrite (OpPayload.patchSetWrite readPatchSet) v.patchSet payloads
  patchSetOid := lastWrite OpPayload.patchSetOidWrite v.patchSetOid payloads
  description := lastWrite OpPayload.descriptionWrite v.description payloads
  annotations := payloads.foldl OpPayload.annotated v.annotations
  opCount := v.opCount + payloads.length
  isDestroyed := lastWrite OpPayload.destroyedWrite v.isDestroyed payloads

variable {readPatchSet : PatchSetReader} {v : MaterializedView}

theorem after_append (payloads payloads' : List OpPayload) :
    v.after readPatchSet (payloads ++ payloads') =
      (v.after readPatchSet payloads).after readPatchSet payloads' := by
  simp [after, Nat.add_assoc]

theorem lookup_annotations_after (payloads : List OpPayload) (key : String) :
    (v.after readPatchSet payloads).annotations.lookup key =
      lastWrite (OpPayload.annotationWrite key) (v.annotations.lookup key) payloads := by
  have hfold (annotations : FiniteMap String JsonObject) :
      (payloads.foldl OpPayload.annotated annotations).lookup key =
        lastWrite (OpPayload.annotationWrite key) (annotations.lookup key) payloads := by
    induction payloads generalizing annotations with
    | nil => rfl
    | cons payload payloads ih =>
      rw [List.foldl_cons, lastWrite_cons, ih, OpPayload.lookup_annotated]
  exact hfold v.annotations

end MaterializedView

section Replay

variable {readPatchSet : PatchSetReader}

/-- An operation reads its patch set, and writes some fields. -/
theorem applyOperation_eq (view : MaterializedView) (op : Operation) :
    applyOperation readPatchSet view op =
      (op.payload.reads readPatchSet).map fun _ => view.after readPatchSet [op.payload] := by
  obtain ⟨parentIds, workspaceId, timestamp, payload⟩ := op
  rcases payload with _ | _ | oid | _ | _ | _ | _ | _ | _ | _ | _
  case snapshot =>
    rcases h : readPatchSet oid with e | ps
    · simp [applyOperation, OpPayload.reads, h, bind, Except.bind, Except.map]
    · simp [applyOperation, OpPayload.reads, MaterializedView.after, h, bind, Except.bind,
        Except.map, pure, Except.pure, OpPayload.epochWrite, OpPayload.patchSetWrite,
        OpPayload.patchSetOidWrite, OpPayload.descriptionWrite, OpPayload.destroyedWrite,
        OpPayload.annotated, Except.toOption]
  all_goals rfl

/-- A replay reads the patch sets of its snapshots; each field is what was written last. -/
theorem replay_eq (view : MaterializedView) (ops : List (GitOid × Operation)) :
    ops.foldlM (fun view e => applyOperation readPatchSet view e.2) view =
      (OpPayload.readAll readPatchSet (ops.map fun e => e.2.payload)).map fun _ =>
        view.after readPatchSet (ops.map fun e => e.2.payload) := by
  induction ops generalizing view with
  | nil => rfl
  | cons e ops ih =>
    rw [List.foldlM_cons, applyOperation_eq, List.map_cons, OpPayload.readAll]
    rcases e.2.payload.reads readPatchSet with err | _
    · rfl
    · have hcons : view.after readPatchSet (e.2.payload :: ops.map fun e => e.2.payload) =
          (view.after readPatchSet [e.2.payload]).after readPatchSet
            (ops.map fun e => e.2.payload) :=
        MaterializedView.after_append [e.2.payload] _
      rw [hcons]
      exact ih _

end Replay

end Maw.Oplog
