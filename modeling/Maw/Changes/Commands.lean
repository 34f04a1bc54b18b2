import Maw.Changes.Store
import Maw.Merge.Drivers
import Maw.Recovery.RecoveryRefs

/-!
# The commands on changes

A change is created with a branch and its primary workspace; further workspaces are created for
it and bound to it; its pull request is opened or adopted and noted in the record; at the end it is
closed, with its branch if that is asked for. All of them read the record first, without the
lock, and write it back under the lock.

## Main definitions

* `createChange`, `rollbackChangeCreate` — `changes create`.
* `createWithOutput`, `bindWorkspaceToChange` — `ws create --change`.
* `prChange` — `changes pr`.
* `closeChange`, `deleteChangeBranchIfRequested` — `changes close`.
* `ChangesCommand.run` — any of them.
-/

open Interleaved

namespace Maw.Changes

structure CreateArgs where
  title : String
  «from» : String
  id : Option String
  workspace : Option String
  tracker : Option String
  trackerUrl : Option String

structure CloseArgs where
  changeId : String
  deleteBranch : Bool
  remote : Bool
  force : Bool

structure PrArgs where
  changeId : String
  draft : Bool
  ready : Bool
  title : Option String
  bodyFile : Option String
  base : Option String

/-! ### Texts -/

def eqIgnoreAsciiCase (a b : String) : Bool :=
  a.toList.map Char.toLower = b.toList.map Char.toLower

/-- Nothing is left of the text when it is trimmed. -/
def isBlank (s : String) : Bool := s.toList.all isWhiteSpace

/-- The characters of a slug so far, the last one first. -/
def slugChars : List Char → List Char → Bool → List Char
  | [], slug, _ => slug
  | ch :: rest, slug, previousDash =>
    let slug' :=
      if ch.isAlphanum then ch.toLower :: slug else if previousDash then slug else '-' :: slug
    if 40 ≤ slug'.length then slug' else slugChars rest slug' (!ch.isAlphanum)

def slugifyTitle (title : String) : String :=
  let slug := slugChars title.toList [] false
  let trimmed := ((slug.dropWhile (· = '-')).reverse.dropWhile (· = '-'))
  if trimmed = [] then "change" else .ofList trimmed

def parseTracker (tracker trackerUrl : Option String) : Option ChangeTracker :=
  let (provider, id) := match tracker with
    | none => ("", "")
    | some raw =>
      match splitOnce ':' raw.toList with
      | some (provider, id) => (.ofList provider, .ofList id)
      | none => ("", raw)
  if provider = "" && id = "" && trackerUrl = none then none
  else some ⟨provider, id, trackerUrl.getD ""⟩

variable {ι : Type}

section Programs

variable (i : ι)

/-- The record of a change that a command was given. -/
def expectRecord (changeId : String) : Option ChangeRecord → ChangesProg ι ChangeRecord
  | some record => pure record
  | none => throw (.changeNotFound changeId)

/-! ### Workspaces of a change -/

def resolveWorkspaceSource (changeId : String) : ChangesProg ι String := do
  let record ← invoke i (.readActiveRecord changeId) >>= expectRecord changeId
  if isBlank record.git.changeBranch then throw (.noChangeBranch changeId)
  else pure (trimText record.git.changeBranch)

def resolveAttachedBranch (changeId : String) : ChangesProg ι (Option String) := do
  let record ← invoke i (.readActiveRecord changeId) >>= expectRecord changeId
  pure (if isBlank record.git.changeBranch then none else some (trimText record.git.changeBranch))

/-- Link a workspace to the record that was read before the lock is taken. -/
def bindWorkspaceToChange (workspaceName changeId : String) : ChangesProg ι Unit := do
  let read ← invoke i (.readActiveRecord changeId) >>= expectRecord changeId
  withStoreLock i (.bind read workspaceName changeId)

def ensureWorkspaceAbsent (name : String) (exists_ : Bool) : ChangesProg ι Unit :=
  if exists_ then throw (.workspaceAlreadyExists name) else pure ()

def writeTemplateArtifactIf (name : String) (template : Bool) : ChangesProg ι Unit :=
  if template then outside i (.writeTemplateArtifact name) else pure ()

/-- Create a workspace at the branch of a change and bind it to the change. -/
def createWithOutput (name changeId : String) (template : Bool) : ChangesProg ι Unit := do
  outside i (.workspacePath name)
  invoke i (.workspaceExists name) >>= ensureWorkspaceAbsent name
  outside i .createWorkspacesDir
  let source ← resolveWorkspaceSource i changeId
  let attached ← resolveAttachedBranch i changeId
  let epoch ← outside i (.resolveEpoch source)
  invoke i (.addWorktree name epoch)
  outside i (.writeMetadata name changeId attached)
  bindWorkspaceToChange i name changeId
  writeTemplateArtifactIf i name template

/-! ### Creation -/

section Create

variable (hash : String → String)

/-- Candidates are tried from one attempt on, for a number of attempts. -/
def generateChangeIdFrom (title : String) (attempt : ℕ) : ℕ → ChangesProg ι String
  | 0 => throw .noUniqueChangeId
  | attempts + 1 => do
    let candidate := "ch-" ++ hash (if attempt = 0 then title else title ++ ":" ++ toString attempt)
    match ← invoke i (.readActiveRecord candidate) with
    | none => pure candidate
    | some _ => generateChangeIdFrom title (attempt + 1) attempts

def generateChangeId (title : String) : ChangesProg ι String :=
  generateChangeIdFrom i hash title 0 1000

def ensureChangeIdFree (changeId : String) : Option ChangeRecord → ChangesProg ι String
  | none => pure changeId
  | some _ => throw (.changeIdExists changeId)

/-- The id that was asked for, if it is valid and free, or a new one. -/
def chooseChangeId (args : CreateArgs) : ChangesProg ι String :=
  match args.id with
  | none => generateChangeId i hash args.title
  | some explicitId =>
    if validChangeId explicitId then
      invoke i (.readActiveRecord explicitId) >>= ensureChangeIdFree explicitId
    else throw (.invalidChangeId explicitId)

def ensureBranchAbsent (branch : String) : ChangesProg ι Unit := do
  match ← invoke i (.readRef branch) with
  | none => pure ()
  | some _ => throw (.branchExists branch)

/-- The part after the first slash, if what is before it is a remote. -/
def inferBaseBranch («from» : String) : ChangesProg ι String :=
  match splitOnce '/' «from».toList with
  | none | some (_, []) => pure «from»
  | some (remote, branch) => do
    let known ← asOption (outside i (.remoteExists (.ofList remote)))
    pure (if known = some true then .ofList branch else «from»)

def newRecord (args : CreateArgs) (changeId sourceOid baseBranch createdAt : String) :
    ChangeRecord where
  changeId := changeId
  title := args.title
  state := .open
  createdAt := createdAt
  source := ⟨args.from, sourceOid⟩
  git := ⟨baseBranch, "feat/" ++ changeId ++ "-" ++ slugifyTitle args.title⟩
  workspaces := ⟨args.workspace.getD changeId, [args.workspace.getD changeId]⟩
  tracker := parseTracker args.tracker args.trackerUrl
  pr := none

/-- Remove the mappings and the record of a change, and then its branch if that is possible. -/
def rollbackChangeCreate (changeId branch : String) : ChangesProg ι Unit := do
  withStoreLock i (.rollback changeId)
  ignoreError (invoke i (.deleteRef branch true))

/-- The metadata of a change and its primary workspace, without which all is taken back. -/
def registerChange (record : ChangeRecord) : ChangesProg ι Unit := do
  withStoreLock i (.create record)
  handle (createWithOutput i record.workspaces.primary record.changeId false) fun cause => do
    rollbackChangeCreate i record.changeId record.git.changeBranch
    throw (.primaryWorkspace record.workspaces.primary cause)

def createChange (args : CreateArgs) : ChangesProg ι Unit := do
  let source ← outside i (.resolveCreateSource args.from)
  let sourceOid ← outside i (.gitRevParse source.resolvedRef)
  let changeId ← chooseChangeId i hash args
  let branch := "feat/" ++ changeId ++ "-" ++ slugifyTitle args.title
  ensureBranchAbsent i branch
  invoke i (.createBranch branch sourceOid)
  let baseBranch ← inferBaseBranch i args.from
  let createdAt ← outside i .nowTimestamp
  registerChange i (newRecord args changeId sourceOid baseBranch createdAt)

end Create

/-! ### Closing -/

def isPrMerged (record : ChangeRecord) : Bool :=
  record.pr.any fun pr => eqIgnoreAsciiCase pr.state "merged"

/-- The linked workspaces that exist. -/
def existingWorkspaces : List String → ChangesProg ι (List String)
  | [] => pure []
  | name :: rest => do
    let exists_ ← invoke i (.workspaceExists name)
    let existing ← existingWorkspaces rest
    pure (if exists_ then name :: existing else existing)

def ensureLinkedWorkspacesResolved (record : ChangeRecord) (force : Bool) :
    ChangesProg ι Unit := do
  let existing ← existingWorkspaces i record.workspaces.linked
  if existing = [] ∨ force then pure ()
  else throw (.linkedWorkspacesExist record.changeId existing)

/-- The record with its pull request merged, if that is how it is seen now. -/
def markMerged (record : ChangeRecord) (pr : ChangePr) (view : GhPrView) :
    ChangesProg ι ChangeRecord :=
  if view.mergedAt.isSome then pure { record with pr := some { pr with state := "merged" } }
  else throw (.prNotMerged record.changeId pr.number view.state)

def ensurePrMergedIfRequired (record : ChangeRecord) (force : Bool) :
    ChangesProg ι ChangeRecord :=
  if force then pure record
  else
    match record.pr with
    | none => throw (.noPrMetadata record.changeId)
    | some pr =>
      if eqIgnoreAsciiCase pr.state "merged" then pure record
      else outside i (.ghPrView pr.number) >>= markMerged record pr

def ensureMergedIntoHead (branch oid : String) (force : Bool) : ChangesProg ι Unit :=
  if force then pure ()
  else do
    let merged ← outside i (.isMergedIntoHead oid)
    if merged then pure () else throw (.branchNotMerged branch)

def expectBranch (branch : String) : Option String → ChangesProg ι String
  | some oid => pure oid
  | none => throw (.branchMissing branch)

/-- After the local branch, delete the remote one if that is asked for. -/
def deleteRemoteBranch (branch : String) (deleteRemote : Bool) : ChangesProg ι (Bool × Bool) :=
  if !deleteRemote then pure (true, false)
  else do
    outside i (.pushDelete branch)
    pure (true, true)

def deleteChangeBranchIfRequested (branch : String) (deleteBranch deleteRemote force : Bool) :
    ChangesProg ι (Bool × Bool) :=
  if !deleteBranch then pure (false, false)
  else do
    let trunk ← outside i .configBranch
    if branch = trunk then throw (.trunkBranch branch)
    else
      let oid ← invoke i (.readRef branch) >>= expectBranch branch
      ensureMergedIntoHead i branch oid force
      invoke i (.deleteRef branch false)
      deleteRemoteBranch i branch deleteRemote

def closeChange (args : CloseArgs) : ChangesProg ι Unit := do
  let read ← invoke i (.readActiveRecord args.changeId) >>= expectRecord args.changeId
  ensureLinkedWorkspacesResolved i read args.force
  let checked ← ensurePrMergedIfRequired i read args.force
  let record := { checked with state := if isPrMerged checked then .merged else .closed }
  let deleted ← deleteChangeBranchIfRequested i record.git.changeBranch args.deleteBranch
    args.remote args.force
  let _stamp ← outside i .nowTimestamp
  withStoreLock i (.close read record args.force deleted.1)

/-! ### Pull requests -/

/-- The open pull request with the lowest number. -/
def findOpenPr (head base : String) : ChangesProg ι (Option GhPrSummary) := do
  let prs ← outside i (.ghPrList head base)
  pure (prs.mergeSort fun a b => a.number ≤ b.number).head?

def findOrCreatePr (head base : String) (args : PrArgs) : ChangesProg ι (Option GhPrSummary) := do
  match ← findOpenPr i head base with
  | some pr => pure (some pr)
  | none => do
    outside i (.ghPrCreate head base args.draft args.title args.bodyFile)
    findOpenPr i head base

def applyPrEdits (number : ℕ) (args : PrArgs) : ChangesProg ι Unit :=
  if args.title = none ∧ args.bodyFile = none ∧ args.base = none then pure ()
  else outside i (.ghPrEdit number args.title args.bodyFile args.base)

def markReady (pr : GhPrSummary) (args : PrArgs) : ChangesProg ι GhPrSummary :=
  if args.ready && pr.isDraft then do
    outside i (.ghPrReady pr.number false)
    pure { pr with isDraft := false }
  else pure pr

def markDraft (pr : GhPrSummary) (args : PrArgs) : ChangesProg ι GhPrSummary :=
  if args.draft && !pr.isDraft then do
    outside i (.ghPrReady pr.number true)
    pure { pr with isDraft := true }
  else pure pr

def applyPrDraftToggle (pr : GhPrSummary) (args : PrArgs) : ChangesProg ι GhPrSummary := do
  let pr ← markReady i pr args
  markDraft i pr args

def ensureLocalBranchExists (branch : String) : ChangesProg ι Unit := do
  let _oid ← invoke i (.readRef branch) >>= expectBranch branch
  pure ()

def baseBranchOf (record : ChangeRecord) (args : PrArgs) : String :=
  match args.base with
  | some base => base
  | none =>
    if isBlank record.git.baseBranch then "main" else trimText record.git.baseBranch

def expectPr (changeId : String) : Option GhPrSummary → ChangesProg ι GhPrSummary
  | some pr => pure pr
  | none => throw (.noOpenPr changeId)

/-- The pull request of a branch that is pushed. -/
def openPr (read : ChangeRecord) (head : String) (args : PrArgs) : ChangesProg ι GhPrSummary := do
  ensureLocalBranchExists i head
  let base := baseBranchOf read args
  outside i (.push head)
  let pr ← findOrCreatePr i head base args >>= expectPr read.changeId
  applyPrEdits i pr.number args
  applyPrDraftToggle i pr args

def ensureChangeBranch (read : ChangeRecord) : ChangesProg ι Unit :=
  if isBlank read.git.changeBranch then throw (.noChangeBranch read.changeId) else pure ()

def prChange (args : PrArgs) : ChangesProg ι Unit := do
  let read ← invoke i (.readActiveRecord args.changeId) >>= expectRecord args.changeId
  ensureChangeBranch read
  let pr ← openPr i read (trimText read.git.changeBranch) args
  withStoreLock i (.pr read ⟨pr.number, pr.url, pr.state.toLower, pr.isDraft⟩)

/-! ### Commands -/

/-- The commands that change the store. -/
inductive ChangesCommand
  | create (args : CreateArgs)
  | wsCreate (name changeId : String) (template : Bool)
  | pr (args : PrArgs)
  | close (args : CloseArgs)

def ChangesCommand.run (hash : String → String) : ChangesCommand → ChangesProg ι Unit
  | create args => createChange i hash args
  | wsCreate name changeId template => createWithOutput i name changeId template
  | pr args => prChange i args
  | close args => closeChange i args

end Programs

/-! ### Programs that only read -/

section Only

/-- The calls that change nothing in the store, in the branches and in the workspaces, and that
no change depends on. -/
def ChangesAction.Reads : ChangesAction → Prop
  | .outside (.writeTemplateArtifact _) => False
  | .outside _ | .readActiveRecord _ | .readIndex | .readRef _ | .workspaceExists _ => True
  | _ => False

/-- The reading calls of a process. -/
def ReadsOf (i : ι) (op : ι × ChangesAction) : Prop := op.1 = i ∧ op.2.Reads

variable {i : ι}

theorem only_invoke {a : ChangesAction} (ha : a.Reads) :
    (invoke i a).run.Only (ReadsOf i) :=
  only_attempt ⟨rfl, ha⟩

theorem only_pure {P : ι × ChangesAction → Prop} {α : Type} (a : α) :
    (pure a : ChangesProg ι α).run.Only P := trivial

theorem only_throw {P : ι × ChangesAction → Prop} {α : Type} (e : ChangesError) :
    (throw e : ChangesProg ι α).run.Only P := trivial

theorem only_expectRecord (id : String) (o : Option ChangeRecord) :
    (expectRecord (ι := ι) id o).run.Only (ReadsOf i) := by
  cases o with
  | none => exact only_throw _
  | some record => exact only_pure _

theorem only_readRecord (id : String) :
    (invoke i (.readActiveRecord id) >>= expectRecord id).run.Only (ReadsOf i) :=
  only_bind (only_invoke trivial) (only_expectRecord id)

theorem only_resolveWorkspaceSource (id : String) :
    (resolveWorkspaceSource i id).run.Only (ReadsOf i) :=
  only_bind (only_readRecord id) fun _ => only_ite (only_throw _) (only_pure _)

theorem only_generateChangeIdFrom (hash : String → String) (title : String) (attempts : ℕ) :
    ∀ attempt, (generateChangeIdFrom i hash title attempt attempts).run.Only (ReadsOf i) := by
  induction attempts with
  | zero => exact fun _ => only_throw _
  | succ attempts ih =>
    intro attempt
    refine only_bind (only_invoke trivial) fun o => ?_
    cases o with
    | none => exact only_pure _
    | some record => exact ih _

theorem only_ensureBranchAbsent (branch : String) :
    (ensureBranchAbsent i branch).run.Only (ReadsOf i) := by
  refine only_bind (only_invoke trivial) fun o => ?_
  cases o with
  | none => exact only_pure _
  | some oid => exact only_throw _

theorem only_inferBaseBranch (spec : String) : (inferBaseBranch i spec).run.Only (ReadsOf i) := by
  unfold inferBaseBranch
  split
  · exact only_pure _
  · exact only_pure _
  · exact only_bind (only_asOption (only_invoke trivial)) fun _ => only_pure _

theorem only_existingWorkspaces (names : List String) :
    (existingWorkspaces i names).run.Only (ReadsOf i) := by
  induction names with
  | nil => exact only_pure _
  | cons name names ih =>
    exact only_bind (only_invoke trivial) fun _ => only_bind ih fun _ => only_pure _

theorem only_ensureLinkedWorkspacesResolved (record : ChangeRecord) (force : Bool) :
    (ensureLinkedWorkspacesResolved i record force).run.Only (ReadsOf i) :=
  only_bind (only_existingWorkspaces _) fun _ => only_ite (only_pure _) (only_throw _)

theorem only_ensureMergedIntoHead (branch oid : String) (force : Bool) :
    (ensureMergedIntoHead i branch oid force).run.Only (ReadsOf i) :=
  only_ite (only_pure _)
    (only_bind (only_invoke trivial) fun _ => only_ite (only_pure _) (only_throw _))

theorem only_expectBranch (branch : String) (o : Option String) :
    (expectBranch (ι := ι) branch o).run.Only (ReadsOf i) := by
  cases o with
  | none => exact only_throw _
  | some oid => exact only_pure _

theorem only_findOpenPr (head base : String) : (findOpenPr i head base).run.Only (ReadsOf i) :=
  only_bind (only_invoke trivial) fun _ => only_pure _

theorem only_openPr (read : ChangeRecord) (head : String) (args : PrArgs) :
    (openPr i read head args).run.Only (ReadsOf i) := by
  have hfind (base : String) : (findOrCreatePr i head base args).run.Only (ReadsOf i) := by
    refine only_bind (only_findOpenPr head base) fun o => ?_
    cases o with
    | none => exact only_bind (only_invoke trivial) fun _ => only_findOpenPr head base
    | some pr => exact only_pure _
  have hedits (number : ℕ) : (applyPrEdits i number args).run.Only (ReadsOf i) :=
    only_ite (only_pure _) (only_invoke trivial)
  have hready (pr : GhPrSummary) : (markReady i pr args).run.Only (ReadsOf i) :=
    only_ite (only_bind (only_invoke trivial) fun _ => only_pure _) (only_pure _)
  have hdraft (pr : GhPrSummary) : (markDraft i pr args).run.Only (ReadsOf i) :=
    only_ite (only_bind (only_invoke trivial) fun _ => only_pure _) (only_pure _)
  have hbranch : (ensureLocalBranchExists i head).run.Only (ReadsOf i) :=
    only_bind (only_bind (only_invoke trivial) (only_expectBranch head)) fun _ => only_pure _
  refine only_bind hbranch fun _ => only_bind (only_invoke trivial) fun _ => ?_
  refine only_bind (only_bind (hfind _) fun o => ?_) fun pr => ?_
  · cases o with
    | none => exact only_throw _
    | some pr => exact only_pure _
  · exact only_bind (hedits _) fun _ => only_bind (hready pr) hdraft

end Only

end Maw.Changes
