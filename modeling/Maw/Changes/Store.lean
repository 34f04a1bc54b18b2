import Maw.Library.FiniteMap
import Maw.Library.Triples

/-!
# The change store

A change has a record, a branch and workspaces. Its record is a file of the active records until
the change is closed, and of the archive from then on; an index tells which change a branch and a
workspace belong to. Whoever writes to the store holds its lock, which one process holds at a
time, but records and index are read without it.

## Main definitions

* `ChangeRecord`, `ChangeIndex`, `ActiveRecords`, `Registry` — the files of the store.
* `StoreUpdate` — what is done under the lock, and the record that it was read from.
* `ChangesWorld`, `ChangesAction.exec` — the store beside the branches and workspaces, and what
  a call does to them.
* `withStoreLock`, `StoreUpdate.run` — an update from the lock to its release.
-/

open Interleaved

namespace Maw.Changes

/-! ### Records and index -/

inductive ChangeState
  | «open»
  | review
  | merged
  | closed
  | aborted
  deriving DecidableEq, Repr

structure ChangeSource where
  «from» : String
  fromOid : String
  deriving DecidableEq, Repr

structure ChangeGit where
  baseBranch : String
  changeBranch : String
  deriving DecidableEq, Repr

structure ChangeWorkspaces where
  primary : String
  linked : List String
  deriving DecidableEq, Repr

structure ChangeTracker where
  provider : String
  id : String
  url : String
  deriving DecidableEq, Repr

structure ChangePr where
  number : ℕ
  url : String
  state : String
  draft : Bool
  deriving DecidableEq, Repr

structure ChangeRecord where
  changeId : String
  title : String
  state : ChangeState
  createdAt : String
  source : ChangeSource
  git : ChangeGit
  workspaces : ChangeWorkspaces
  tracker : Option ChangeTracker
  pr : Option ChangePr
  deriving DecidableEq, Repr

/-- The change of each branch and of each workspace. -/
@[ext]
structure ChangeIndex where
  byBranch : FiniteMap String String
  byWorkspace : FiniteMap String String
  deriving DecidableEq

namespace ChangeIndex

variable (index : ChangeIndex)

def setBranchMapping (branch changeId : String) : ChangeIndex :=
  { index with byBranch := index.byBranch.insert branch changeId }

def setWorkspaceMapping (workspace changeId : String) : ChangeIndex :=
  { index with byWorkspace := index.byWorkspace.insert workspace changeId }

def clearMappingsForChange (changeId : String) : ChangeIndex where
  byBranch := index.byBranch.filterValues (· ≠ changeId)
  byWorkspace := index.byWorkspace.filterValues (· ≠ changeId)

end ChangeIndex

/-- Change ids name files. -/
def validChangeId (changeId : String) : Bool :=
  changeId ≠ "" && changeId.toList.all fun ch => ch.isAlphanum || ch = '-' || ch = '_'

/-- The active records, each in the file of its id. -/
structure ActiveRecords where
  files : FiniteMap String ChangeRecord
  keyed : ∀ id record, files.lookup id = some record → record.changeId = id
  valid : ∀ id record, files.lookup id = some record → validChangeId id

namespace ActiveRecords

def lookup (active : ActiveRecords) (id : String) : Option ChangeRecord := active.files.lookup id

@[ext]
theorem ext {a b : ActiveRecords} (h : ∀ id, a.lookup id = b.lookup id) : a = b := by
  obtain ⟨f, hf, hf'⟩ := a
  obtain ⟨g, hg, hg'⟩ := b
  obtain rfl : f = g := Finmap.ext_lookup h
  rfl

def put (active : ActiveRecords) (record : ChangeRecord) (h : validChangeId record.changeId) :
    ActiveRecords where
  files := active.files.insert record.changeId record
  keyed := by
    intro id r hr
    rw [FiniteMap.lookup_insert] at hr
    split_ifs at hr with hid
    · rw [← Option.some.inj hr, hid]
    · exact active.keyed id r hr
  valid := by
    intro id r hr
    rw [FiniteMap.lookup_insert] at hr
    split_ifs at hr with hid
    · rwa [hid]
    · exact active.valid id r hr

def remove (active : ActiveRecords) (id : String) : ActiveRecords where
  files := active.files.erase id
  keyed := by
    intro id' r hr
    rw [FiniteMap.lookup_erase] at hr
    split_ifs at hr
    exact active.keyed id' r hr
  valid := by
    intro id' r hr
    rw [FiniteMap.lookup_erase] at hr
    split_ifs at hr
    exact active.valid id' r hr

theorem lookup_put (active : ActiveRecords) (record : ChangeRecord)
    (h : validChangeId record.changeId) (id : String) :
    (active.put record h).lookup id =
      if id = record.changeId then some record else active.lookup id :=
  FiniteMap.lookup_insert ..

theorem lookup_remove (active : ActiveRecords) (id id' : String) :
    (active.remove id).lookup id' = if id' = id then none else active.lookup id' :=
  FiniteMap.lookup_erase ..

theorem changeId_eq {active : ActiveRecords} {id : String} {record : ChangeRecord}
    (h : active.lookup id = some record) : record.changeId = id :=
  active.keyed id record h

theorem validChangeId_of_lookup {active : ActiveRecords} {id : String} {record : ChangeRecord}
    (h : active.lookup id = some record) : validChangeId record.changeId := by
  rw [changeId_eq h]
  exact active.valid id record h

end ActiveRecords

/-- The files of the store. -/
@[ext]
structure Registry where
  index : ChangeIndex
  active : ActiveRecords
  archive : List ChangeRecord

/-- Move an active record to the archive. -/
def Registry.archiveActiveRecord (reg : Registry) (id : String) : Registry where
  index := reg.index
  active := reg.active.remove id
  archive := reg.archive ++ (reg.active.lookup id).toList

namespace ChangeRecord

/-- Link a workspace, as the primary one if there is none. -/
def link (record : ChangeRecord) (workspace : String) : ChangeRecord :=
  { record with workspaces := {
      primary := if record.workspaces.primary = "" then workspace else record.workspaces.primary
      linked := if workspace ∈ record.workspaces.linked then record.workspaces.linked
        else record.workspaces.linked ++ [workspace] } }

end ChangeRecord

/-! ### Updates under the lock -/

/-- An update of the store, with the record that the command has read for it. -/
inductive StoreUpdate
  | create (record : ChangeRecord)
  | rollback (changeId : String)
  | bind (read : ChangeRecord) (workspaceName changeId : String)
  | pr (read : ChangeRecord) (pr : ChangePr)
  | close (read record : ChangeRecord) (force localDeleted : Bool)
  deriving DecidableEq

def StoreUpdate.isClose : StoreUpdate → Bool
  | close .. => true
  | _ => false

/-- What a command did to the store, with the index that it found. -/
inductive Effect
  | created (record : ChangeRecord) (found : ChangeIndex)
  | bound (changeId workspaceName : String)
  | stored (changeId : String) (pr : ChangePr)
  | closed (record : ChangeRecord) (force : Bool)
  deriving DecidableEq

def Effect.changeId : Effect → String
  | created record _ => record.changeId
  | bound changeId _ => changeId
  | stored changeId _ => changeId
  | closed record _ => record.changeId

variable {ι : Type}

structure Entry (ι : Type) where
  who : ι
  effect : Effect

/-- Who holds the lock, for which update, and the index when the lock was taken. -/
structure Held (ι : Type) where
  who : ι
  update : StoreUpdate
  found : ChangeIndex

/-- The store, the branches, the directories of the workspaces, the lock, and the commands that
have changed the store so far. -/
structure ChangesWorld (ι : Type) where
  registry : Registry
  branches : FiniteMap String String
  workspaces : Finset String
  holder : Option (Held ι)
  log : List (Entry ι)

/-- The log after the last write of an update. The binding that is part of a creation is not an
entry of its own, and a creation that is rolled back has none. -/
def Held.note [DecidableEq ι] (held : Held ι) (log : List (Entry ι)) : List (Entry ι) :=
  match held.update with
  | .create record => log ++ [⟨held.who, .created record held.found⟩]
  | .rollback _ => log.filter fun e => e.who ≠ held.who
  | .bind _ workspaceName changeId =>
    if ∃ e ∈ log, e.who = held.who then log
    else log ++ [⟨held.who, .bound changeId workspaceName⟩]
  | .pr read pr => log ++ [⟨held.who, .stored read.changeId pr⟩]
  | .close _ record force _ => log ++ [⟨held.who, .closed record force⟩]

/-! ### Calls -/

structure ResolvedSource where
  resolvedRef : String
  fetchedRemote : Bool

structure GhPrView where
  state : String
  mergedAt : Option String

structure GhPrSummary where
  number : ℕ
  url : String
  state : String
  isDraft : Bool

/-- Calls that neither read nor change the store, a branch or a workspace directory. -/
inductive OutsideCall
  | resolveCreateSource (sourceSpec : String)
  | gitRevParse (rev : String)
  | remoteExists (remote : String)
  | nowTimestamp
  | workspacePath (name : String)
  | createWorkspacesDir
  | resolveEpoch (revision : String)
  | writeMetadata (name changeId : String) (branch : Option String)
  | writeTemplateArtifact (name : String)
  | ghPrView (number : ℕ)
  | configBranch
  | isMergedIntoHead (oid : String)
  | pushDelete (branch : String)
  | push (branch : String)
  | ghPrList (head base : String)
  | ghPrCreate (head base : String) (draft : Bool) (title bodyFile : Option String)
  | ghPrEdit (number : ℕ) (title bodyFile base : Option String)
  | ghPrReady (number : ℕ) (undo : Bool)

abbrev OutsideCall.Answer : OutsideCall → Type
  | resolveCreateSource _ => ResolvedSource
  | gitRevParse _ | nowTimestamp | resolveEpoch _ | configBranch => String
  | remoteExists _ | isMergedIntoHead _ => Bool
  | ghPrView _ => GhPrView
  | ghPrList .. => List GhPrSummary
  | _ => Unit

inductive ChangesAction
  | outside (call : OutsideCall)
  | readActiveRecord (changeId : String)
  | lock (update : StoreUpdate)
  | readIndex
  | writeIndex (index : ChangeIndex)
  | writeActiveRecord (record : ChangeRecord)
  | deleteActiveRecord (changeId : String)
  | archiveActiveRecord (changeId : String)
  | unlock
  | readRef (branch : String)
  | createBranch (branch oid : String)
  | deleteRef (branch : String) (rollback : Bool)
  | workspaceExists (name : String)
  | addWorktree (name epoch : String)

inductive ChangesError
  | call
  | changeIdExists (changeId : String)
  | invalidChangeId (changeId : String)
  | noUniqueChangeId
  | branchExists (branch : String)
  | branchMissing (branch : String)
  | primaryWorkspace (name : String) (cause : ChangesError)
  | changeNotFound (changeId : String)
  | noChangeBranch (changeId : String)
  | workspaceAlreadyExists (name : String)
  | linkedWorkspacesExist (changeId : String) (existing : List String)
  | noPrMetadata (changeId : String)
  | prNotMerged (changeId : String) (number : ℕ) (state : String)
  | trunkBranch (branch : String)
  | branchNotMerged (branch : String)
  | disappeared (changeId : String)
  | noOpenPr (changeId : String)
  deriving DecidableEq, Repr

namespace ChangesAction

abbrev Ret : ChangesAction → Type
  | outside call => call.Answer
  | readActiveRecord _ => Option ChangeRecord
  | readIndex => ChangeIndex
  | archiveActiveRecord _ => Bool
  | readRef _ => Option String
  | workspaceExists _ => Bool
  | _ => Unit

variable [DecidableEq ι]

/-- A call that fails and changes nothing. -/
def Fails {α : Type} (w : ChangesWorld ι) (r : Except ChangesError α) (w' : ChangesWorld ι) :
    Prop :=
  r = .error .call ∧ w' = w

/-- What a call does. The store is written to by whoever holds its lock. -/
def exec (op : ι × ChangesAction) (w : ChangesWorld ι) (r : Except ChangesError op.2.Ret)
    (w' : ChangesWorld ι) : Prop :=
  match op with
  | (_, .outside call) => w' = w ∧ ∀ e, r = .error e → e = .call ∧ call ≠ .nowTimestamp
  | (_, .readActiveRecord id) =>
    (validChangeId id ∧ r = .ok (w.registry.active.lookup id) ∧ w' = w) ∨ Fails w r w'
  | (i, .lock update) =>
    (w.holder = none ∧ r = .ok () ∧ w' = { w with holder := some ⟨i, update, w.registry.index⟩ }) ∨
      Fails w r w'
  | (_, .readIndex) => (r = .ok w.registry.index ∧ w' = w) ∨ Fails w r w'
  | (i, .writeIndex index) => ∃ held, w.holder = some held ∧ held.who = i ∧
    ((r = .ok () ∧ w' = { w with registry := { w.registry with index } }) ∨ Fails w r w')
  | (i, .writeActiveRecord record) => ∃ held, w.holder = some held ∧ held.who = i ∧
    ((∃ hid : validChangeId record.changeId, r = .ok () ∧ w' = { w with
        registry := { w.registry with active := w.registry.active.put record hid }
        -- A close still has to clear the index and to archive the record.
        log := if held.update.isClose then w.log else held.note w.log }) ∨ Fails w r w')
  | (i, .deleteActiveRecord id) => ∃ held, w.holder = some held ∧ held.who = i ∧
    ((r = .ok () ∧ w' = { w with
        registry := { w.registry with active := w.registry.active.remove id }
        log := held.note w.log }) ∨ Fails w r w')
  | (i, .archiveActiveRecord id) => ∃ held, w.holder = some held ∧ held.who = i ∧
    (((w.registry.active.lookup id).isSome ∧ r = .ok true ∧ w' = { w with
        registry := w.registry.archiveActiveRecord id, log := held.note w.log }) ∨
      (w.registry.active.lookup id = none ∧ r = .ok false ∧ w' = w) ∨ Fails w r w')
  | (i, .unlock) => ∃ held, w.holder = some held ∧ held.who = i ∧ r = .ok () ∧
    w' = { w with holder := none }
  | (_, .readRef branch) => (r = .ok (w.branches.lookup branch) ∧ w' = w) ∨ Fails w r w'
  -- The update expects that the ref does not exist.
  | (_, .createBranch branch oid) =>
    (w.branches.lookup branch = none ∧ r = .ok () ∧
        w' = { w with branches := w.branches.insert branch oid }) ∨ Fails w r w'
  | (_, .deleteRef branch _) =>
    (r = .ok () ∧ w' = { w with branches := w.branches.erase branch }) ∨ Fails w r w'
  | (_, .workspaceExists name) => r = .ok (decide (name ∈ w.workspaces)) ∧ w' = w
  -- A creation that fails may leave the directory.
  | (_, .addWorktree name _) =>
    (r = .ok () ∧ w' = { w with workspaces := insert name w.workspaces }) ∨
      r = .error .call ∧ (w' = w ∨ w' = { w with workspaces := insert name w.workspaces })

end ChangesAction

/-! ### Programs -/

/-- Programs of processes that use the store. -/
abbrev ChangesProg (ι : Type) :=
  Fallible ChangesError (ι × ChangesAction) fun op => op.2.Ret

/-- A call of a process. -/
def invoke (i : ι) (a : ChangesAction) : ChangesProg ι a.Ret := attempt (i, a)

def outside (i : ι) (call : OutsideCall) : ChangesProg ι call.Answer := invoke i (.outside call)

section Programs

variable (i : ι)

/-- The rest of a close: the record must still be there to be archived. -/
def expectArchived (changeId : String) (archived : Bool) : ChangesProg ι Unit :=
  if archived then pure () else throw (.disappeared changeId)

/-- What is done under the lock. -/
def StoreUpdate.run : StoreUpdate → ChangesProg ι Unit
  | create record => do
    let index ← invoke i .readIndex
    invoke i (.writeIndex ((index.setBranchMapping record.git.changeBranch
      record.changeId).setWorkspaceMapping record.workspaces.primary record.changeId))
    invoke i (.writeActiveRecord record)
  | rollback changeId => do
    let index ← invoke i .readIndex
    invoke i (.writeIndex (index.clearMappingsForChange changeId))
    invoke i (.deleteActiveRecord changeId)
  | bind read workspaceName changeId => do
    let index ← invoke i .readIndex
    invoke i (.writeIndex (index.setWorkspaceMapping workspaceName changeId))
    invoke i (.writeActiveRecord (read.link workspaceName))
  | pr read data => invoke i (.writeActiveRecord { read with pr := some data })
  | close _ record _ _ => do
    invoke i (.writeActiveRecord record)
    let index ← invoke i .readIndex
    invoke i (.writeIndex (index.clearMappingsForChange record.changeId))
    let archived ← invoke i (.archiveActiveRecord record.changeId)
    expectArchived record.changeId archived

/-- Take the lock, do an update, and give the lock back whether it fails or not. -/
def withStoreLock (update : StoreUpdate) : ChangesProg ι Unit := do
  invoke i (.lock update)
  onError (update.run i) (invoke i .unlock)
  invoke i .unlock

end Programs

end Maw.Changes
