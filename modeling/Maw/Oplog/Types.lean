import Maw.Core.Types
import Maw.Library.Hex
import Maw.Library.Json

/-!
# Operations of a workspace log

The operations that a workspace log is made of, the patch sets that its snapshots name, and the
JSON forms of what a checkpoint holds.

## Main definitions

* `NamedWorkspace` — workspace ids that pass the validation of their names.
* `PatchValue`, `PatchSet` — the content of a snapshot.
* `OpPayload`, `Operation` — one entry of the log.
-/

namespace Maw

/-- The forty hexadecimal digits of an id. -/
def GitOid.asStr (oid : GitOid) : String := Hex.toHex (show BitVec (4 * 40) from oid.bits)

/-- Read an id; anything but forty lower-case hexadecimal digits is refused. -/
def GitOid.new (s : String) : Option GitOid := (Hex.ofHex 40 s).map GitOid.mk

@[simp]
theorem GitOid.new_asStr (oid : GitOid) : GitOid.new oid.asStr = some oid := by
  rw [GitOid.new, GitOid.asStr, Hex.ofHex_toHex]
  rfl

def EpochId.asStr (epoch : EpochId) : String := epoch.oid.asStr

def EpochId.new (s : String) : Option EpochId := (GitOid.new s).map EpochId.mk

@[simp]
theorem EpochId.new_asStr (epoch : EpochId) : EpochId.new epoch.asStr = some epoch := by
  rw [EpochId.new, EpochId.asStr, GitOid.new_asStr]
  rfl

def FileId.toHex (fileId : FileId) : String := Hex.toHex (show BitVec (4 * 32) from fileId.bits)

def FileId.fromHex (s : String) : Option FileId := (Hex.ofHex 32 s).map FileId.mk

@[simp]
theorem FileId.fromHex_toHex (fileId : FileId) : FileId.fromHex fileId.toHex = some fileId := by
  rw [FileId.fromHex, FileId.toHex, Hex.ofHex_toHex]
  rfl

/-- Whether the name is made of one to sixty-four lower-case letters, digits and single hyphens
between them. -/
def WorkspaceId.validate (ws : WorkspaceId) : Bool :=
  let cs := ws.name.toList
  !cs.isEmpty && ws.name.utf8ByteSize ≤ 64 &&
    !(cs.head? = some '-' || cs.getLast? = some '-') &&
    cs.all (fun c => ('a' ≤ c && c ≤ 'z') || ('0' ≤ c && c ≤ '9') || c = '-') &&
    !decide (['-', '-'] <:+: cs)

namespace Oplog

/-- The workspace ids that can be built. -/
abbrev NamedWorkspace := {ws : WorkspaceId // ws.validate = true}

namespace NamedWorkspace

def asStr (ws : NamedWorkspace) : String := ws.1.name

def new (s : String) : Option NamedWorkspace :=
  if h : WorkspaceId.validate ⟨s⟩ = true then some ⟨⟨s⟩, h⟩ else none

theorem asStr_injective : Function.Injective asStr := by
  rintro ⟨⟨name⟩, hname⟩ ⟨⟨name'⟩, hname'⟩ heq
  congr

@[simp]
theorem new_asStr (ws : NamedWorkspace) : new ws.asStr = some ws := by
  rw [new, dif_pos (show WorkspaceId.validate ⟨ws.asStr⟩ = true from ws.2)]
  rfl

end NamedWorkspace

/-- The change of one path against the epoch. -/
inductive PatchValue
  | add (blob : GitOid) (fileId : FileId)
  | delete (previousBlob : GitOid) (fileId : FileId)
  | modify (baseBlob newBlob : GitOid) (fileId : FileId)
  | rename (source : String) (fileId : FileId) (newBlob : Option GitOid)
  deriving DecidableEq, Repr

/-- The changed paths of a workspace against an epoch. -/
structure PatchSet where
  baseEpoch : EpochId
  patches : FiniteMap String PatchValue
  deriving DecidableEq

/-- What an operation did. -/
inductive OpPayload
  | create (epoch : EpochId)
  | destroy
  | snapshot (patchSetOid : GitOid)
  | merge (sources : List NamedWorkspace) (epochBefore epochAfter : EpochId)
  | compensate (targetOp : GitOid) (reason : String)
  | describe (message : String)
  | rebaseReplay (originalCommit : GitOid) (newCommit : Option GitOid) (hadConflicts : Bool)
  | conflictDetected (path : String) (originalCommit : GitOid)
      (baseBlob oursBlob theirsBlob : Option GitOid)
  | conflictResolved (path : String) (resolutionCommit : GitOid)
  | annotate (key : String) (data : JsonObject)
  | rebase (oldEpoch newEpoch : EpochId) (oldHead newHead : GitOid) (replayed conflicts : ℕ)
      (trigger : String)

/-- One entry of a log; it names the entries before it. -/
structure Operation where
  parentIds : List GitOid
  workspaceId : NamedWorkspace
  timestamp : String
  payload : OpPayload

/-! ### JSON forms -/

open JsonCodec

instance : JsonCodec GitOid := ofString GitOid.asStr GitOid.new GitOid.new_asStr

instance : JsonCodec EpochId := ofString EpochId.asStr EpochId.new EpochId.new_asStr

instance : JsonCodec FileId := ofString FileId.toHex FileId.fromHex FileId.fromHex_toHex

namespace PatchValue

/-- The fields of a patch value; the kind of the change stands under `op`. -/
def toFields : PatchValue → JsonObject
  | add blob fileId => ⟨[("blob", toJson blob), ("file_id", toJson fileId), ("op", toJson "add")]⟩
  | delete previousBlob fileId =>
    ⟨[("file_id", toJson fileId), ("op", toJson "delete"), ("previous_blob", toJson previousBlob)]⟩
  | modify baseBlob newBlob fileId =>
    ⟨[("base_blob", toJson baseBlob), ("file_id", toJson fileId), ("new_blob", toJson newBlob),
      ("op", toJson "modify")]⟩
  | rename source fileId newBlob =>
    ⟨[("file_id", toJson fileId), ("from", toJson source), ("new_blob", optionToJson newBlob),
      ("op", toJson "rename")]⟩

def ofFields (o : JsonObject) : Option PatchValue := do
  match ← (o.field "op" : Option String) with
  | "add" => return add (← o.field "blob") (← o.field "file_id")
  | "delete" => return delete (← o.field "previous_blob") (← o.field "file_id")
  | "modify" =>
    return modify (← o.field "base_blob") (← o.field "new_blob") (← o.field "file_id")
  | "rename" =>
    return rename (← o.field "from") (← o.field "file_id") (← o.optionField "new_blob")
  | _ => none

theorem ofFields_toFields (value : PatchValue) : ofFields value.toFields = some value := by
  rcases value with _ | _ | _ | _ <;>
    simp [ofFields, toFields, JsonObject.field, JsonObject.optionField, List.lookup_cons]

end PatchValue

instance : JsonCodec PatchValue :=
  ofRecord PatchValue.toFields PatchValue.ofFields PatchValue.ofFields_toFields

namespace PatchSet

def toFields (ps : PatchSet) : JsonObject :=
  ⟨[("base_epoch", toJson ps.baseEpoch), ("patches", toJson ps.patches)]⟩

def ofFields (o : JsonObject) : Option PatchSet :=
  return { baseEpoch := ← o.field "base_epoch", patches := ← o.field "patches" }

theorem ofFields_toFields (ps : PatchSet) : ofFields ps.toFields = some ps := by
  simp [ofFields, toFields, JsonObject.field, List.lookup_cons]

end PatchSet

instance : JsonCodec PatchSet :=
  ofRecord PatchSet.toFields PatchSet.ofFields PatchSet.ofFields_toFields

end Oplog

end Maw
