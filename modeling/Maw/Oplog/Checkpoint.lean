import Maw.Oplog.View

/-!
# Checkpoints

A checkpoint is an annotation that holds the view at the operation before it. The view at the
head is then restored from the latest checkpoint and from the operations after it.

## Main definitions

* `CheckpointView`, `CheckpointData` — what a checkpoint holds.
* `maybeWriteCheckpoint` — appending a checkpoint at every so many operations.
* `materializeFromCheckpoint` — the view from the latest checkpoint on.

## Main results

* `extractCheckpoint_createCheckpointOp`, `toView_fromView` — the data of a checkpoint survives.
* `restore_eq` — what the replay from a checkpoint yields.
-/

open Interleaved

namespace Maw.Oplog

open JsonCodec ExceptRun

def checkpointKey : String := "checkpoint"

/-- The part of a view that is kept in a checkpoint. -/
structure CheckpointView where
  workspaceId : String
  epoch : Option String
  patchSet : Option PatchSet
  patchSetOid : Option String
  description : Option String
  annotations : FiniteMap String JsonObject
  isDestroyed : Bool

/-- What a checkpoint holds. -/
structure CheckpointData where
  view : CheckpointView
  opCount : ℕ
  triggerOid : String

namespace CheckpointView

def fromView (view : MaterializedView) : CheckpointView where
  workspaceId := view.workspaceId.asStr
  epoch := view.epoch.map EpochId.asStr
  patchSet := view.patchSet
  patchSetOid := view.patchSetOid.map GitOid.asStr
  description := view.description
  annotations := view.annotations.filterKeys (· ≠ checkpointKey)
  isDestroyed := view.isDestroyed

/-- Parse a string that may be missing. -/
def parseOption {α : Type} (parse : String → Option α) (fault : CheckpointError) :
    Option String → Except CheckpointError (Option α)
  | none => .ok none
  | some s =>
    match parse s with
    | none => .error fault
    | some a => .ok (some a)

def toView (view : CheckpointView) (opCount : ℕ) : Except CheckpointError MaterializedView := do
  let epoch ← parseOption EpochId.new (.invalidData (.epochOid view.epoch)) view.epoch
  let patchSetOid ←
    parseOption GitOid.new (.invalidData (.patchSetOid view.patchSetOid)) view.patchSetOid
  match NamedWorkspace.new view.workspaceId with
  | none => throw (.invalidData (.workspaceId view.workspaceId))
  | some workspaceId =>
    return {
      workspaceId, epoch, patchSet := view.patchSet, patchSetOid, description := view.description,
      annotations := view.annotations, opCount, isDestroyed := view.isDestroyed }

theorem parseOption_map {α : Type} {parse : String → Option α} {write : α → String}
    (h : ∀ a, parse (write a) = some a) (fault : CheckpointError) (a : Option α) :
    parseOption parse fault (a.map write) = .ok a := by
  rcases a with _ | a
  · rfl
  · simp [parseOption, h]

/-- A view is restored but for the records of checkpoints. -/
theorem toView_fromView (view : MaterializedView) (opCount : ℕ) :
    (fromView view).toView opCount = .ok { view with
      annotations := view.annotations.filterKeys (· ≠ checkpointKey), opCount } := by
  rw [toView, fromView, parseOption_map EpochId.new_asStr, parseOption_map GitOid.new_asStr,
    NamedWorkspace.new_asStr]
  rfl

def toFields (view : CheckpointView) : JsonObject :=
  ⟨[("annotations", toJson view.annotations), ("description", optionToJson view.description),
    ("epoch", optionToJson view.epoch), ("is_destroyed", toJson view.isDestroyed),
    ("patch_set", optionToJson view.patchSet), ("patch_set_oid", optionToJson view.patchSetOid),
    ("workspace_id", toJson view.workspaceId)]⟩

def ofFields (o : JsonObject) : Option CheckpointView :=
  return {
    workspaceId := ← o.field "workspace_id"
    epoch := ← o.optionField "epoch"
    patchSet := ← o.optionField "patch_set"
    patchSetOid := ← o.optionField "patch_set_oid"
    description := ← o.optionField "description"
    annotations := ← o.field "annotations"
    isDestroyed := ← o.field "is_destroyed" }

theorem ofFields_toFields (view : CheckpointView) : ofFields view.toFields = some view := by
  simp [ofFields, toFields, JsonObject.field, JsonObject.optionField, List.lookup_cons]

end CheckpointView

instance : JsonCodec CheckpointView :=
  ofRecord CheckpointView.toFields CheckpointView.ofFields CheckpointView.ofFields_toFields

namespace CheckpointData

def toFields (data : CheckpointData) : JsonObject :=
  ⟨[("op_count", toJson data.opCount), ("trigger_oid", toJson data.triggerOid),
    ("view", toJson data.view)]⟩

def ofFields (o : JsonObject) : Option CheckpointData :=
  return {
    view := ← o.field "view"
    opCount := ← o.field "op_count"
    triggerOid := ← o.field "trigger_oid" }

theorem ofFields_toFields (data : CheckpointData) : ofFields data.toFields = some data := by
  simp [ofFields, toFields, JsonObject.field, List.lookup_cons]

end CheckpointData

instance : JsonCodec CheckpointData :=
  ofRecord CheckpointData.toFields CheckpointData.ofFields CheckpointData.ofFields_toFields

/-- Whether the payload is an annotation under the key of checkpoints. -/
def OpPayload.isCheckpoint : OpPayload → Bool
  | .annotate key _ => key = checkpointKey
  | _ => false

def isCheckpoint (op : Operation) : Bool := op.payload.isCheckpoint

/-- The data of a checkpoint, if the operation is one and its data can be parsed. -/
def extractCheckpoint (op : Operation) : Option CheckpointData :=
  match op.payload with
  | .annotate key data => if key = checkpointKey then ofJson (.object data.fields) else none
  | _ => none

def shouldCheckpoint (opCount interval : ℕ) : Bool :=
  interval > 0 && opCount > 0 && opCount % interval = 0

/-- The checkpoint of a view, made at some time. -/
def createCheckpointOp (view : MaterializedView) (triggerOid parentOid : GitOid)
    (timestamp : String) : Operation where
  parentIds := [parentOid]
  workspaceId := view.workspaceId
  timestamp := timestamp
  payload := .annotate checkpointKey <|
    match toJson (CheckpointData.mk (.fromView view) view.opCount triggerOid.asStr) with
    | .object fields => ⟨fields⟩
    | _ => ⟨[]⟩

/-- Append a checkpoint of the view if its number of operations is due. -/
def maybeWriteCheckpoint (ws : NamedWorkspace) (currentView : MaterializedView)
    (triggerOid currentHead : GitOid) (interval : ℕ) (timestamp : String) :
    OpLogProg (Option GitOid) :=
  if shouldCheckpoint currentView.opCount interval then do
    let cpOp := createCheckpointOp currentView triggerOid currentHead timestamp
    let oid ← appendOperation ws cpOp (some currentHead)
    return some oid
  else
    return none

@[simp]
theorem isCheckpoint_createCheckpointOp (view : MaterializedView) (triggerOid parentOid : GitOid)
    (timestamp : String) :
    isCheckpoint (createCheckpointOp view triggerOid parentOid timestamp) = true := by
  simp [isCheckpoint, OpPayload.isCheckpoint, createCheckpointOp]

/-- The data of a checkpoint is read back from it. -/
theorem extractCheckpoint_createCheckpointOp (view : MaterializedView)
    (triggerOid parentOid : GitOid) (timestamp : String) :
    extractCheckpoint (createCheckpointOp view triggerOid parentOid timestamp) =
      some ⟨.fromView view, view.opCount, triggerOid.asStr⟩ :=
  CheckpointData.ofFields_toFields _

/-! ### Replay from a checkpoint -/

/-- The effect of one operation on a view, as in the full replay. -/
def replaySingleOp (readPatchSet : PatchSetReader) (view : MaterializedView) (op : Operation) :
    Except CheckpointError MaterializedView :=
  let view := { view with opCount := view.opCount + 1 }
  match op.payload with
  | .create epoch =>
    return { view with
      epoch := some epoch, patchSet := none, patchSetOid := none, isDestroyed := false }
  | .snapshot patchSetOid => do
    let ps ← (readPatchSet patchSetOid).mapError .view
    return { view with patchSet := some ps, patchSetOid := some patchSetOid }
  | .compensate _ _ => return { view with patchSet := none, patchSetOid := none }
  | .merge _ _ epochAfter =>
    return { view with epoch := some epochAfter, patchSet := none, patchSetOid := none }
  | .describe message => return { view with description := some message }
  | .annotate key data => return { view with annotations := view.annotations.insert key data }
  | .destroy => return { view with isDestroyed := true }
  | .rebaseReplay _ _ _ | .conflictDetected _ _ _ _ _ | .conflictResolved _ _
  | .rebase _ _ _ _ _ _ _ => return view

/-- The operations of a chain, newest first, up to its latest checkpoint. -/
def postCheckpoint (chain : List (GitOid × Operation)) : List (GitOid × Operation) :=
  chain.takeWhile fun e => !isCheckpoint e.2

/-- The latest checkpoint of a chain, newest first, and the operations before it. -/
def fromCheckpoint (chain : List (GitOid × Operation)) : List (GitOid × Operation) :=
  chain.dropWhile fun e => !isCheckpoint e.2

/-- Restore the view of a checkpoint and replay the operations after it. -/
def restore (readPatchSet : PatchSetReader) (cpOp : Operation)
    (post : List (GitOid × Operation)) : Except CheckpointError MaterializedView :=
  match extractCheckpoint cpOp with
  | none => throw (.invalidData .unparseable)
  | some cpData => do
    let view ← cpData.view.toView cpData.opCount
    post.reverse.foldlM (fun view e =>
      -- No checkpoint comes after the latest one, so this case does not arise.
      if isCheckpoint e.2 then
        return { view with opCount := view.opCount + 1 }
      else
        replaySingleOp readPatchSet view e.2) view

/-- Replay a chain from its latest checkpoint, or all of it if it has none. -/
def replayChain (ws : NamedWorkspace) (readPatchSet : PatchSetReader)
    (chain : List (GitOid × Operation)) : Except CheckpointError MaterializedView :=
  match fromCheckpoint chain with
  | (_, cpOp) :: _ => restore readPatchSet cpOp (postCheckpoint chain)
  | [] => (materializeFromOps ws chain.reverse readPatchSet).mapError .view

def materializeFromCheckpoint (log : OpLog) (ws : NamedWorkspace)
    (readPatchSet : PatchSetReader) : Except CheckpointError MaterializedView := do
  let chain ← (log.walkChain ws none none).mapError .opLogRead
  if chain.isEmpty then
    throw (.opLogRead (.noHead ws))
  replayChain ws readPatchSet chain

section Replay

variable {readPatchSet : PatchSetReader}

/-- The two replays give an operation the same effect. -/
theorem replaySingleOp_eq (view : MaterializedView) (op : Operation) :
    replaySingleOp readPatchSet view op =
      (applyOperation readPatchSet view op).mapError .view := by
  obtain ⟨parentIds, workspaceId, timestamp, payload⟩ := op
  rcases payload with _ | _ | oid | _ | _ | _ | _ | _ | _ | _ | _
  case snapshot =>
    rcases h : readPatchSet oid with e | ps <;>
      simp [replaySingleOp, applyOperation, h, bind, Except.bind, Except.mapError, pure,
        Except.pure]
  all_goals rfl

variable {chain : List (GitOid × Operation)} {e : GitOid × Operation} {ws : NamedWorkspace}

@[simp]
theorem postCheckpoint_cons_of_not (h : isCheckpoint e.2 = false) :
    postCheckpoint (e :: chain) = e :: postCheckpoint chain :=
  List.takeWhile_cons_of_pos (by simp [h])

@[simp]
theorem fromCheckpoint_cons_of_not (h : isCheckpoint e.2 = false) :
    fromCheckpoint (e :: chain) = fromCheckpoint chain :=
  List.dropWhile_cons_of_pos (by simp [h])

@[simp]
theorem postCheckpoint_cons_of_checkpoint (h : isCheckpoint e.2 = true) :
    postCheckpoint (e :: chain) = [] :=
  List.takeWhile_cons_of_neg (by simp [h])

@[simp]
theorem fromCheckpoint_cons_of_checkpoint (h : isCheckpoint e.2 = true) :
    fromCheckpoint (e :: chain) = e :: chain :=
  List.dropWhile_cons_of_neg (by simp [h])

/-- One more operation that is no checkpoint is replayed on the view before it. -/
theorem replayChain_cons_of_not (h : isCheckpoint e.2 = false) :
    replayChain ws readPatchSet (e :: chain) = (do
      let view ← replayChain ws readPatchSet chain
      replaySingleOp readPatchSet view e.2) := by
  rw [replayChain, replayChain, fromCheckpoint_cons_of_not h, postCheckpoint_cons_of_not h]
  rcases fromCheckpoint chain with _ | ⟨cp, pre⟩
  · simp only [materializeFromOps, List.reverse_cons, List.foldlM_append, mapError_bind]
    refine bind_congr fun view => ?_
    simp only [List.foldlM_cons, List.foldlM_nil, bind_pure, replaySingleOp_eq]
  · simp only [restore, List.reverse_cons, List.foldlM_append]
    rcases extractCheckpoint cp.2 with _ | cpData
    · rfl
    · simp [h]

/-- A checkpoint is restored. -/
theorem replayChain_cons_of_checkpoint (h : isCheckpoint e.2 = true) :
    replayChain ws readPatchSet (e :: chain) = restore readPatchSet e.2 [] := by
  rw [replayChain, fromCheckpoint_cons_of_checkpoint h, postCheckpoint_cons_of_checkpoint h]

theorem not_isCheckpoint_of_mem {chain : List (GitOid × Operation)} :
    ∀ e ∈ postCheckpoint chain, isCheckpoint e.2 = false := by
  intro e he
  have h := List.all_eq_true.mp List.all_takeWhile e he
  simpa using h

/-- What the operations after a checkpoint make of a view. -/
theorem foldlM_replay_eq {ops : List (GitOid × Operation)}
    (h : ∀ e ∈ ops, isCheckpoint e.2 = false) (view : MaterializedView) :
    ops.foldlM (fun view e =>
      if isCheckpoint e.2 then
        return { view with opCount := view.opCount + 1 }
      else
        replaySingleOp readPatchSet view e.2) view =
      ((OpPayload.readAll readPatchSet (ops.map fun e => e.2.payload)).map fun _ =>
        view.after readPatchSet (ops.map fun e => e.2.payload)).mapError .view := by
  rw [← replay_eq]
  induction ops generalizing view with
  | nil => rfl
  | cons e ops ih =>
    rw [List.foldlM_cons, List.foldlM_cons, h e List.mem_cons_self, if_neg (by simp),
      replaySingleOp_eq]
    rcases applyOperation readPatchSet view e.2 with err | view'
    · rfl
    · exact ih (fun e' he' => h e' (List.mem_cons_of_mem _ he')) view'

/-- What is restored depends on what the operations did, not on where they are stored. -/
theorem restore_congr {cpOp cpOp' : Operation} {post post' : List (GitOid × Operation)}
    (hcp : cpOp'.payload = cpOp.payload)
    (hpost : ∀ e ∈ post, isCheckpoint e.2 = false) (hpost' : ∀ e ∈ post', isCheckpoint e.2 = false)
    (h : post'.reverse.map (fun e => e.2.payload) = post.reverse.map fun e => e.2.payload) :
    restore readPatchSet cpOp' post' = restore readPatchSet cpOp post := by
  have hextract : extractCheckpoint cpOp' = extractCheckpoint cpOp := by
    rw [extractCheckpoint, extractCheckpoint, hcp]
  rw [restore, restore, hextract]
  rcases extractCheckpoint cpOp with _ | cpData
  · rfl
  · refine bind_congr fun view => ?_
    rw [foldlM_replay_eq fun e he => hpost' e (List.mem_reverse.mp he),
      foldlM_replay_eq fun e he => hpost e (List.mem_reverse.mp he), h]

end Replay

end Maw.Oplog
