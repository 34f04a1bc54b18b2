import Maw.Changes.Serial

/-!
# Whether the commands on changes are serializable

In every undisturbed run of any number of commands, the store is as after the commands that
succeeded, one after the other in the order of their updates. Where a record is written between
the time a command reads it and the time the command takes the lock, this fails: a pull request
that is opened while its change is closed makes the closed change active again.

## Main definitions

* `ChangesCommand.Did` — the effects that a command may have.
* `changesPool` — commands on one store.
* `Serialized` — the store is as after the commands that succeeded.

## Main results

* `changes_serialized` — undisturbed runs are serialized.
* `pr_reopens_closed` — a run that is not.
-/

open Interleaved

namespace Maw.Changes

variable {ι : Type}

/-! ### Programs that need no lock -/

section Only

/-- The calls of a process that need no lock. -/
def Free (i : ι) (op : ι × ChangesAction) : Prop := op.1 = i ∧ NeedsNoLock op.2

variable {i : ι}

theorem free_of_reads (op : ι × ChangesAction) (h : ReadsOf i op) : Free i op := by
  obtain ⟨j, a⟩ := op
  obtain ⟨rfl, ha⟩ := h
  refine ⟨rfl, ?_⟩
  cases a with
  | outside call =>
    cases call with
    | writeTemplateArtifact name => exact ha.elim
    | _ => rfl
  | readActiveRecord | readIndex | readRef | workspaceExists => rfl
  | _ => exact ha.elim

theorem only_invoke_free {a : ChangesAction} (ha : NeedsNoLock a) :
    (invoke i a).run.Only (Free i) :=
  only_attempt ⟨rfl, ha⟩

theorem only_deleteChangeBranch (branch : String) (deleteBranch deleteRemote force : Bool) :
    (deleteChangeBranchIfRequested i branch deleteBranch deleteRemote force).run.Only
      (Free i) := by
  refine only_ite (only_pure _) (only_bind (only_invoke_free rfl) fun trunk => ?_)
  refine only_ite (only_throw _) ?_
  have hread : (invoke i (.readRef branch) >>= expectBranch branch).run.Only (ReadsOf i) :=
    only_bind (only_invoke trivial) (only_expectBranch branch)
  exact only_bind (hread.mono free_of_reads) fun oid =>
    only_bind ((only_ensureMergedIntoHead branch oid force).mono free_of_reads) fun _ =>
      only_bind (only_invoke_free rfl) fun _ =>
        only_ite (only_pure _) (only_bind (only_invoke_free rfl) fun _ => only_pure _)

end Only

/-! ### Commands -/

/-- The effects that a command may have. -/
def ChangesCommand.Did : ChangesCommand → Effect → Prop
  | create args, .created record _ => record.title = args.title ∧
    (∀ id, args.id = some id → record.changeId = id) ∧
      record.workspaces.primary = args.workspace.getD record.changeId ∧
        record.workspaces.linked = [record.workspaces.primary] ∧ record.pr = none
  | wsCreate name changeId _, .bound id workspace => id = changeId ∧ workspace = name
  | pr args, .stored id _ => id = args.changeId
  | close args, .closed record force => record.changeId = args.changeId ∧ force = args.force
  | _, _ => False

section Commands

variable [DecidableEq ι] {reg₀ : Registry} {i : ι}

/-- The frame rule: a program that only reads. -/
theorem triple_reads {α : Type} {p : ChangesProg ι α} (effects : List (Entry ι))
    (hp : p.run.Only (ReadsOf i)) :
    SerialTriple reg₀ i (Outside reg₀ i effects) p (fun _ => Outside reg₀ i effects)
      (Outside reg₀ i effects) :=
  triple_outside effects (hp.mono free_of_reads)

/-- A record that was read is the one of the change. -/
theorem triple_readRecord (id : String) (effects : List (Entry ι)) :
    SerialTriple reg₀ i (Outside reg₀ i effects)
      (invoke i (.readActiveRecord id) >>= expectRecord id)
      (fun record w => record.changeId = id ∧ Outside reg₀ i effects w)
      (Outside reg₀ i effects) := by
  have hstable := stable_outside reg₀ i effects
  refine triple_bind hstable (triple_readActiveRecord id effects) fun o => ?_
  refine triple_of_fact fun hid => ?_
  cases o with
  | none => exact triple_throw hstable fun _ h => h
  | some record => exact triple_pure hstable fun w hw => ⟨hid record rfl, hw⟩

/-- The effects of a process that binds a workspace. -/
def bindEffects (i : ι) (name changeId : String) (effects : List (Entry ι)) : List (Entry ι) :=
  if ∃ e ∈ effects, e.who = i then effects else effects ++ [⟨i, .bound changeId name⟩]

theorem triple_bindWorkspaceToChange (name changeId : String) (effects : List (Entry ι)) :
    SerialTriple reg₀ i (Outside reg₀ i effects) (bindWorkspaceToChange i name changeId)
      (fun _ => Outside reg₀ i (bindEffects i name changeId effects))
      (Outside reg₀ i effects) := by
  have hstable := stable_outside reg₀ i effects
  refine triple_bind hstable (triple_readRecord changeId effects) fun read =>
    triple_of_fact fun _ => ?_
  have hlock := triple_withStoreLock (.bind read name changeId) trivial effects nofun hstable
    fun _ _ h => h
  refine hlock.imp ?_ fun _ h => h
  rintro _ w ⟨found, hw⟩
  exact hw

/-- A template is written without fail, and does not need the lock. -/
theorem triple_writeTemplateArtifactIf (name : String) (template : Bool)
    (effects : List (Entry ι)) {F : ChangesWorld ι → Prop} (hF : Stable (Rely reg₀ i) F) :
    SerialTriple reg₀ i (Outside reg₀ i effects) (writeTemplateArtifactIf i name template)
      (fun _ => Outside reg₀ i effects) F := by
  have hstable := stable_outside reg₀ i effects
  cases template with
  | false => exact triple_pure hstable fun _ h => h
  | true =>
    refine triple_attempt hstable (fun _ => hstable) hF ?_
    rintro w r w' ⟨hsettled, hholder, hlog⟩ hexec
    have hmoves : Moves i w w' := moves_of_exec hexec fun held _ _ _ hheld hwho =>
      absurd hwho (hholder held hheld)
    obtain ⟨⟨hw', -⟩, hundisturbed⟩ := hexec
    subst hw'
    refine ⟨⟨hsettled, hmoves, hsettled⟩, ?_⟩
    rcases r with e | u
    · exact absurd rfl (hundisturbed.stays rfl e)
    · exact ⟨hsettled, hholder, hlog⟩

theorem triple_createWithOutput (name changeId : String) (template : Bool)
    (effects : List (Entry ι)) :
    SerialTriple reg₀ i (Outside reg₀ i effects) (createWithOutput i name changeId template)
      (fun _ => Outside reg₀ i (bindEffects i name changeId effects))
      (Outside reg₀ i effects) := by
  have hstable := stable_outside reg₀ i effects
  have hcall {a : ChangesAction} (ha : NeedsNoLock a) : SerialTriple reg₀ i
      (Outside reg₀ i effects) (invoke i a) (fun _ => Outside reg₀ i effects)
        (Outside reg₀ i effects) := triple_outside effects (only_invoke_free ha)
  have habsent : (invoke i (.workspaceExists name) >>= ensureWorkspaceAbsent name).run.Only
      (ReadsOf i) := by
    refine only_bind (only_invoke trivial) fun exists_ => ?_
    cases exists_ with
    | false => exact only_pure _
    | true => exact only_throw _
  have hattached : (resolveAttachedBranch i changeId).run.Only (ReadsOf i) :=
    only_bind (only_readRecord changeId) fun _ => only_pure _
  refine triple_bind hstable (hcall rfl) fun _ =>
    triple_bind hstable (triple_reads effects habsent) fun _ =>
    triple_bind hstable (hcall rfl) fun _ =>
    triple_bind hstable (triple_reads effects (only_resolveWorkspaceSource changeId)) fun _ =>
    triple_bind hstable (triple_reads effects hattached) fun _ =>
    triple_bind hstable (hcall rfl) fun _ => triple_bind hstable (hcall rfl) fun _ =>
    triple_bind hstable (hcall rfl) fun _ => ?_
  exact triple_bind hstable (triple_bindWorkspaceToChange name changeId effects) fun _ =>
    triple_writeTemplateArtifactIf name template _ hstable

/-- A creation that is rolled back has no effect. -/
theorem triple_rollbackChangeCreate (changeId branch : String) (e : Entry ι) (he : e.who = i) :
    SerialTriple reg₀ i (Outside reg₀ i [e]) (rollbackChangeCreate i changeId branch)
      (fun _ => Outside reg₀ i []) (Outside reg₀ i []) := by
  have hstable := stable_outside reg₀ i []
  have hlock := triple_withStoreLock (.rollback changeId) trivial [e] (fun _ _ => ⟨e, rfl⟩) hstable
    fun hne => absurd rfl (hne changeId)
  refine triple_bind hstable (hlock.imp ?_ fun _ h => h) fun _ =>
    triple_outside [] (only_ignoreError (only_invoke_free rfl))
  rintro _ w ⟨found, hw⟩
  simpa [Held.note, he] using hw

theorem triple_registerChange (record : ChangeRecord) :
    SerialTriple reg₀ i (Outside reg₀ i []) (registerChange i record)
      (fun _ w => ∃ found, Outside reg₀ i [⟨i, .created record found⟩] w)
      (Outside reg₀ i []) := by
  have hstable := stable_outside reg₀ i []
  have hlock := triple_withStoreLock (.create record) trivial [] nofun hstable fun _ _ h => h
  refine triple_bind hstable hlock fun _ => triple_exists fun found => ?_
  have hresult (u : Unit) : Stable (Rely reg₀ i) fun w => ∃ found,
      Outside reg₀ i [⟨i, .created record found⟩] w := by
    rintro w w' hrely ⟨found', hw⟩
    exact ⟨found', stable_outside _ _ _ w w' hrely hw⟩
  refine triple_handle (E := Outside reg₀ i [⟨i, .created record found⟩]) hresult ?_ fun cause => ?_
  · refine (triple_createWithOutput record.workspaces.primary record.changeId false _).imp ?_
      fun _ h => h
    rintro _ w hw
    have hsame : bindEffects i record.workspaces.primary record.changeId
        [⟨i, .created record found⟩] = [⟨i, .created record found⟩] :=
      if_pos ⟨_, List.mem_singleton_self _, rfl⟩
    exact ⟨found, hsame ▸ hw⟩
  · exact triple_bind hstable (triple_rollbackChangeCreate _ _ _ rfl) fun _ =>
      triple_throw hstable fun _ h => h

theorem triple_chooseChangeId (hash : String → String) (args : CreateArgs)
    (effects : List (Entry ι)) :
    SerialTriple reg₀ i (Outside reg₀ i effects) (chooseChangeId i hash args)
      (fun changeId w => (∀ id, args.id = some id → changeId = id) ∧ Outside reg₀ i effects w)
      (Outside reg₀ i effects) := by
  have hstable := stable_outside reg₀ i effects
  unfold chooseChangeId
  cases args.id with
  | none =>
    refine (triple_reads effects (only_generateChangeIdFrom hash _ _ _)).imp ?_ fun _ h => h
    exact fun changeId w hw => ⟨nofun, hw⟩
  | some explicitId =>
    by_cases hvalid : validChangeId explicitId
    · simp only [hvalid, if_true]
      refine triple_bind hstable (triple_reads effects (only_invoke trivial)) fun o => ?_
      cases o with
      | none =>
        refine triple_pure hstable fun w hw => ⟨?_, hw⟩
        rintro id ⟨⟩
        rfl
      | some record => exact triple_throw hstable fun _ h => h
    · simp only [hvalid, Bool.false_eq_true, if_false]
      exact triple_throw hstable fun _ h => h

/-- How a command ends: with one effect, or without any. -/
abbrev CommandTriple (reg₀ : Registry) (i : ι) (command : ChangesCommand)
    (p : ChangesProg ι Unit) : Prop :=
  SerialTriple reg₀ i (Outside reg₀ i []) p
    (fun _ w => ∃ e, command.Did e ∧ Outside reg₀ i [⟨i, e⟩] w) (Outside reg₀ i [])

theorem triple_createChange (hash : String → String) (args : CreateArgs) :
    CommandTriple reg₀ i (.create args) (createChange i hash args) := by
  have hstable := stable_outside reg₀ i []
  have hcall {a : ChangesAction} (ha : NeedsNoLock a) : SerialTriple reg₀ i
      (Outside reg₀ i []) (invoke i a) (fun _ => Outside reg₀ i []) (Outside reg₀ i []) :=
    triple_outside [] (only_invoke_free ha)
  refine triple_bind hstable (hcall rfl) fun source => triple_bind hstable (hcall rfl) fun oid => ?_
  refine triple_bind hstable (triple_chooseChangeId hash args []) fun changeId =>
    triple_of_fact fun hid => ?_
  refine triple_bind hstable (triple_reads [] (only_ensureBranchAbsent _)) fun _ =>
    triple_bind hstable (hcall rfl) fun _ =>
    triple_bind hstable (triple_reads [] (only_inferBaseBranch _)) fun base =>
    triple_bind hstable (hcall rfl) fun createdAt => ?_
  refine (triple_registerChange _).imp ?_ fun _ h => h
  rintro _ w ⟨found, hw⟩
  exact ⟨.created (newRecord args changeId oid base createdAt) found, ⟨rfl, hid, rfl, rfl, rfl⟩, hw⟩

theorem triple_wsCreate (name changeId : String) (template : Bool) :
    CommandTriple reg₀ i (.wsCreate name changeId template)
      (createWithOutput i name changeId template) := by
  refine (triple_createWithOutput name changeId template []).imp ?_ fun _ h => h
  rintro _ w hw
  exact ⟨.bound changeId name, ⟨rfl, rfl⟩, by simpa [bindEffects] using hw⟩

theorem triple_prChange (args : PrArgs) :
    CommandTriple reg₀ i (.pr args) (prChange i args) := by
  have hstable := stable_outside reg₀ i []
  refine triple_bind hstable (triple_readRecord args.changeId []) fun read =>
    triple_of_fact fun hid => ?_
  have hbranch : (ensureChangeBranch read : ChangesProg ι Unit).run.Only (ReadsOf i) :=
    only_ite (only_throw _) (only_pure _)
  refine triple_bind hstable (triple_reads [] hbranch) fun _ =>
    triple_bind hstable (triple_reads [] (only_openPr read _ args)) fun pr => ?_
  have hlock := triple_withStoreLock (.pr read ⟨pr.number, pr.url, pr.state.toLower, pr.isDraft⟩)
    trivial [] nofun hstable fun _ _ h => h
  refine hlock.imp ?_ fun _ h => h
  rintro _ w ⟨found, hw⟩
  exact ⟨.stored read.changeId _, hid, hw⟩

/-- The check of the pull request changes its state at most. -/
theorem triple_ensurePrMergedIfRequired (read : ChangeRecord) (force : Bool)
    (effects : List (Entry ι)) :
    SerialTriple reg₀ i (Outside reg₀ i effects) (ensurePrMergedIfRequired i read force)
      (fun record w => ClosedFrom read record ∧ Outside reg₀ i effects w)
      (Outside reg₀ i effects) := by
  have hstable := stable_outside reg₀ i effects
  have hsame : ClosedFrom read read := ⟨read.state, read.pr, rfl, .inl rfl⟩
  unfold ensurePrMergedIfRequired
  split_ifs
  · exact triple_pure hstable fun w hw => ⟨hsame, hw⟩
  · cases hpr : read.pr with
    | none => exact triple_throw hstable fun _ h => h
    | some pr =>
      dsimp only
      split_ifs
      · exact triple_pure hstable fun w hw => ⟨hsame, hw⟩
      · refine triple_bind hstable (triple_reads effects (only_invoke trivial)) fun view => ?_
        unfold markMerged
        split_ifs
        · exact triple_pure hstable fun w hw => ⟨⟨read.state, _, rfl, .inr ⟨pr, hpr, rfl⟩⟩, hw⟩
        · exact triple_throw hstable fun _ h => h

theorem triple_closeChange (args : CloseArgs) :
    CommandTriple reg₀ i (.close args) (closeChange i args) := by
  have hstable := stable_outside reg₀ i []
  refine triple_bind hstable (triple_readRecord args.changeId []) fun read =>
    triple_of_fact fun hid => ?_
  refine triple_bind hstable (triple_reads []
    (only_ensureLinkedWorkspacesResolved read args.force)) fun _ =>
    triple_bind hstable (triple_ensurePrMergedIfRequired read args.force []) fun checked =>
    triple_of_fact fun hchecked => ?_
  refine triple_bind hstable (triple_outside [] (only_deleteChangeBranch ..)) fun deleted =>
    triple_bind hstable (triple_reads [] (only_invoke trivial)) fun _ => ?_
  have hclosed := hchecked.withState (if isPrMerged checked then .merged else .closed)
  have hlock := triple_withStoreLock (.close read _ args.force deleted.1) hclosed [] nofun hstable
    fun _ _ h => h
  refine hlock.imp ?_ fun _ h => h
  rintro _ w ⟨found, hw⟩
  exact ⟨.closed _ args.force, ⟨hclosed.changeId.trans hid, rfl⟩, hw⟩

theorem triple_command (hash : String → String) (command : ChangesCommand) :
    CommandTriple reg₀ i command (command.run i hash) := by
  cases command with
  | create args => exact triple_createChange hash args
  | wsCreate name changeId template => exact triple_wsCreate name changeId template
  | pr args => exact triple_prChange args
  | close args => exact triple_closeChange args

end Commands

/-! ### Runs -/

/-- Commands on one store, each in a process of its own. -/
def changesPool (hash : String → String) (commands : ι → ChangesCommand) (reg : Registry)
    (branches : FiniteMap String String) (workspaces : Finset String) :
    Pool (ι × ChangesAction) (fun op => Except ChangesError op.2.Ret)
      (fun _ : ι => Except ChangesError Unit) (ChangesWorld ι) where
  progs i := ((commands i).run i hash).run
  state := ⟨reg, branches, workspaces, none, []⟩

section Runs

variable [DecidableEq ι]

/-- The store is as after the commands that have succeeded, one after the other, and none of them
undoes what another one has done. -/
structure Serialized (commands : ι → ChangesCommand) (reg₀ : Registry)
    (events : List (Event ι (ι × ChangesAction) (ChangesWorld ι)))
    (pool : Pool (ι × ChangesAction) (fun op => Except ChangesError op.2.Ret)
      (fun _ : ι => Except ChangesError Unit) (ChangesWorld ι)) : Prop where
  free : (∀ i, ∃ r, pool.progs i = .done r) → pool.state.holder = none
  replays : pool.state.holder = none → Replays reg₀ pool.state.log pool.state.registry
  succeeded : ∀ i, pool.progs i = .done (.ok ()) →
    ∃ e, ownLog i pool.state.log = [⟨i, e⟩] ∧ (commands i).Did e
  failed : ∀ i e, pool.progs i = .done (.error e) → ownLog i pool.state.log = []
  linked : pool.state.holder = none → ∀ before who e id workspace after,
    pool.state.log = before ++ ⟨who, e⟩ :: after → e.Links id workspace →
      (∀ e ∈ after, ¬ e.effect.Closes id) → ∃ record,
        pool.state.registry.active.lookup id = some record ∧ workspace ∈ record.workspaces.linked
  stored : pool.state.holder = none → ∀ before who id pr after,
    pool.state.log = before ++ ⟨who, .stored id pr⟩ :: after →
      (∀ e ∈ after, ¬ e.effect.Stores id) → ∃ record pr',
        (pool.state.registry.active.lookup id = some record ∨
          record ∈ pool.state.registry.archive ∧ record.changeId = id) ∧
          record.pr = some pr' ∧ (pr' = pr ∨ pr' = { pr with state := "merged" })
  closed : pool.state.holder = none → ∀ before who record force after,
    pool.state.log = before ++ ⟨who, .closed record force⟩ :: after →
      (∀ e ∈ after, ¬ e.effect.Creates record.changeId) →
        pool.state.registry.active.lookup record.changeId = none
  created : pool.state.holder = none → ∀ before who record found between who' record' found' after,
    pool.state.log = before ++ ⟨who, .created record found⟩ ::
        (between ++ ⟨who', .created record' found'⟩ :: after) →
      record'.changeId = record.changeId → ∃ e ∈ between, e.effect.Closes record.changeId
  archived : ∀ e ∈ events, ∀ who record,
    e.after.log = e.before.log ++ [⟨who, .closed record false⟩] →
      ∀ name ∈ record.workspaces.linked, name ∉ e.before.workspaces

/-- In a run in which every update is still based on what its command has read, and none fails
halfway, the commands that succeed are serialized in the order of their updates. -/
theorem changes_serialized (hash : String → String) (commands : ι → ChangesCommand)
    (reg₀ : Registry) (branches : FiniteMap String String) (workspaces : Finset String)
    {events : List (Event ι (ι × ChangesAction) (ChangesWorld ι))}
    {pool : Pool (ι × ChangesAction) (fun op => Except ChangesError op.2.Ret)
      (fun _ : ι => Except ChangesError Unit) (ChangesWorld ι)}
    (h : Run undisturbedExec (changesPool hash commands reg₀ branches workspaces) events pool) :
    Serialized commands reg₀ events pool := by
  have hown : ∀ i j : ι, j ≠ i → ∀ w w', Own reg₀ i w w' → Rely reg₀ j w w' :=
    fun i j hne w w' hown => ⟨i, hne.symm, hown⟩
  have hstart : Settled reg₀ (changesPool hash commands reg₀ branches workspaces).state :=
    fun _ => .nil reg₀
  have houtside₀ (i : ι) :
      Outside reg₀ i [] (changesPool hash commands reg₀ branches workspaces).state := by
    refine ⟨hstart, ?_, rfl⟩
    rintro held ⟨⟩
  have hprogs (i : ι) : ∃ P, P (changesPool hash commands reg₀ branches workspaces).state ∧
      Meets undisturbedExec (Rely reg₀ i) (Own reg₀ i)
        (Ends (fun _ w => ∃ e, (commands i).Did e ∧ Outside reg₀ i [⟨i, e⟩] w) (Outside reg₀ i []))
        ((changesPool hash commands reg₀ branches workspaces).progs i) P :=
    ⟨Outside reg₀ i [], houtside₀ i, triple_command hash (commands i)⟩
  have hevents := (h.meets hown hprogs).2
  have hpromise {i : ι} {r : Except ChangesError Unit} (hi : pool.progs i = .done r) :=
    h.promise hown hprogs hi
  have hsettled : Settled reg₀ pool.state :=
    h.induction (T := fun w w' => Settled reg₀ w → Settled reg₀ w') (fun _ h => h)
      (fun _ _ _ h h' hw => h' (h hw)) (fun e he _ => (hevents e he).2.2) hstart
  refine ⟨fun hall => ?_, hsettled, fun i hi => ?_, fun i e hi => ?_, ?_, ?_, ?_, ?_, ?_⟩
  · by_contra hheld
    obtain ⟨held, hheld⟩ := Option.ne_none_iff_exists'.mp hheld
    obtain ⟨r, hr⟩ := hall held.who
    have houtside : ∃ effects, Outside reg₀ held.who effects pool.state := by
      cases r with
      | error e => exact ⟨_, hpromise hr⟩
      | ok u =>
        obtain ⟨e, -, hw⟩ := hpromise hr
        exact ⟨_, hw⟩
    obtain ⟨effects, -, hother, -⟩ := houtside
    exact hother held hheld rfl
  · obtain ⟨e, hdid, -, -, hlog⟩ := hpromise hi
    exact ⟨e, hlog, hdid⟩
  · exact (hpromise hi).2.2
  · intro hfree before who e id workspace after hlog he hopen
    have hreplays := hsettled hfree
    rw [hlog] at hreplays
    exact hreplays.linked_of_effect he hopen
  · intro hfree before who id pr after hlog hstores
    have hreplays := hsettled hfree
    rw [hlog] at hreplays
    exact hreplays.pr_of_effect hstores
  · intro hfree before who record force after hlog hnew
    have hreplays := hsettled hfree
    rw [hlog] at hreplays
    exact hreplays.inactive_of_effect hnew
  · intro hfree before who record found between who' record' found' after hlog hid
    have hreplays := hsettled hfree
    rw [hlog] at hreplays
    exact hreplays.closed_between hid
  · exact fun e he who record hlog => (hevents e he).2.1.archives who record hlog

end Runs

/-! ### A pull request for a change that is being closed -/

section Reopened

def sampleRecord : ChangeRecord where
  changeId := "ch-1"
  title := "x"
  state := .open
  createdAt := "t"
  source := ⟨"main", "c0"⟩
  git := ⟨"main", "feat/ch-1-x"⟩
  workspaces := ⟨"ch-1", ["ch-1"]⟩
  tracker := none
  pr := none

theorem noRecord_keyed (id : String) (record : ChangeRecord)
    (h : (∅ : FiniteMap String ChangeRecord).lookup id = some record) : record.changeId = id := by
  simp at h

theorem noRecord_valid (id : String) (record : ChangeRecord)
    (h : (∅ : FiniteMap String ChangeRecord).lookup id = some record) : validChangeId id := by
  simp at h

/-- A store with one change, whose workspace is gone. -/
def sampleRegistry : Registry where
  index := (⟨∅, ∅⟩ : ChangeIndex).setBranchMapping "feat/ch-1-x" "ch-1"
  active := (⟨∅, noRecord_keyed, noRecord_valid⟩ : ActiveRecords).put sampleRecord (by decide +kernel)
  archive := []

def sampleBranches : FiniteMap String String := Finmap.singleton "feat/ch-1-x" "c1"

def samplePr : GhPrSummary := ⟨7, "u", "OPEN", false⟩

def samplePrArgs : PrArgs := ⟨"ch-1", false, false, none, none, none⟩

def sampleCloseArgs : CloseArgs := ⟨"ch-1", false, false, true⟩

/-- One process opens the pull request of the change, the other one closes the change. -/
def sampleCommands (i : Fin 2) : ChangesCommand :=
  if i = 0 then .pr samplePrArgs else .close sampleCloseArgs

def samplePool := changesPool id sampleCommands sampleRegistry sampleBranches ∅

/-- The update with which the pull request is noted. -/
def samplePrUpdate : StoreUpdate := .pr sampleRecord ⟨7, "u", "OPEN".toLower, false⟩

variable {E : (op : Fin 2 × ChangesAction) → ChangesWorld (Fin 2) →
    Except ChangesError op.2.Ret → ChangesWorld (Fin 2) → Prop} {w : ChangesWorld (Fin 2)}

/-- Calls that neither take the lock nor create a workspace. -/
def IsPlain : ChangesAction → Prop
  | .lock _ | .addWorktree .. => False
  | _ => True

/-- All plain calls may succeed. -/
def AllowsPlain (E : (op : Fin 2 × ChangesAction) → ChangesWorld (Fin 2) →
    Except ChangesError op.2.Ret → ChangesWorld (Fin 2) → Prop) : Prop :=
  ∀ i a w v w', IsPlain a → ChangesAction.exec (i, a) w (.ok v) w' → E (i, a) w (.ok v) w'

theorem returns_invoke (hE : AllowsPlain E) {i : Fin 2} {a : ChangesAction} (ha : IsPlain a)
    {v : a.Ret} {w' : ChangesWorld (Fin 2)} (h : ChangesAction.exec (i, a) w (.ok v) w') :
    Returns E (invoke i a) w v w' :=
  returns_attempt.mpr (hE i a w v w' ha h)

theorem returns_outside (hE : AllowsPlain E) (i : Fin 2) (call : OutsideCall) (v : call.Answer) :
    Returns E (outside i call) w v w :=
  returns_invoke (a := .outside call) hE trivial ⟨rfl, nofun⟩

theorem returns_readSample (hE : AllowsPlain E) (i : Fin 2)
    (hrecord : w.registry.active.lookup "ch-1" = some sampleRecord) :
    Returns E (invoke i (.readActiveRecord "ch-1") >>= expectRecord "ch-1") w sampleRecord w := by
  refine returns_bind.mpr ⟨some sampleRecord, w, ?_, returns_pure.mpr ⟨rfl, rfl⟩⟩
  refine returns_invoke (a := .readActiveRecord "ch-1") hE trivial
    (.inl ⟨by decide +kernel, ?_, rfl⟩)
  rw [hrecord]

/-- The pull request is there, and comes to be noted. -/
theorem runs_prChange (hE : AllowsPlain E)
    (hrecord : w.registry.active.lookup "ch-1" = some sampleRecord)
    (hbranch : w.branches.lookup "feat/ch-1-x" = some "c1") :
    Prog.Runs E (prChange 0 samplePrArgs).run w (withStoreLock 0 samplePrUpdate).run w := by
  have htrim : trimText sampleRecord.git.changeBranch = "feat/ch-1-x" := by decide +kernel
  have hblank : isBlank sampleRecord.git.changeBranch = false := by decide +kernel
  have hread : Returns E (ensureLocalBranchExists 0 "feat/ch-1-x") w ⟨⟩ w := by
    refine returns_bind.mpr ⟨"c1", w, ?_, returns_pure.mpr ⟨rfl, rfl⟩⟩
    refine returns_bind.mpr ⟨some "c1", w, ?_, returns_pure.mpr ⟨rfl, rfl⟩⟩
    exact returns_invoke (a := .readRef "feat/ch-1-x") hE trivial (.inl ⟨by rw [hbranch], rfl⟩)
  have hfind (base : String) :
      Returns E (findOrCreatePr 0 "feat/ch-1-x" base samplePrArgs) w (some samplePr) w := by
    refine returns_bind.mpr ⟨some samplePr, w, ?_, returns_pure.mpr ⟨rfl, rfl⟩⟩
    refine returns_bind.mpr ⟨[samplePr], w,
      returns_outside hE 0 (.ghPrList "feat/ch-1-x" base) [samplePr], ?_⟩
    exact returns_pure.mpr ⟨by simp, rfl⟩
  have hopen : Returns E (openPr 0 sampleRecord "feat/ch-1-x" samplePrArgs) w samplePr w := by
    refine returns_bind.mpr ⟨⟨⟩, w, hread, ?_⟩
    refine returns_bind.mpr ⟨⟨⟩, w, returns_outside hE 0 (.push "feat/ch-1-x") ⟨⟩, ?_⟩
    refine returns_bind.mpr ⟨samplePr, w, ?_, ?_⟩
    · exact returns_bind.mpr ⟨some samplePr, w, hfind _, returns_pure.mpr ⟨rfl, rfl⟩⟩
    · refine returns_bind.mpr ⟨⟨⟩, w, returns_pure.mpr ⟨rfl, rfl⟩, ?_⟩
      exact returns_bind.mpr ⟨samplePr, w, returns_pure.mpr ⟨rfl, rfl⟩,
        returns_pure.mpr ⟨rfl, rfl⟩⟩
  refine (returns_readSample hE 0 hrecord).bind_runs ?_
  have hcheck : Returns E (ensureChangeBranch sampleRecord) w ⟨⟩ w := by
    rw [ensureChangeBranch, if_neg (by rw [hblank]; decide)]
    exact returns_pure.mpr ⟨rfl, rfl⟩
  refine hcheck.bind_runs ?_
  rw [htrim]
  exact hopen.bind_runs (.refl _ _)

/-- The record with its pull request. -/
def sampleWithPr : ChangeRecord := { sampleRecord with pr := some ⟨7, "u", "OPEN".toLower, false⟩ }

theorem validChangeId_sample : validChangeId sampleRecord.changeId := by decide +kernel

/-- The world after the pull request was noted. -/
def ChangesWorld.afterPr (w : ChangesWorld (Fin 2)) : ChangesWorld (Fin 2) where
  registry := { w.registry with active := w.registry.active.put sampleWithPr validChangeId_sample }
  branches := w.branches
  workspaces := w.workspaces
  holder := none
  log := w.log ++ [⟨0, .stored "ch-1" ⟨7, "u", "OPEN".toLower, false⟩⟩]

theorem returns_prUpdate (hE : AllowsPlain E)
    (hlock : E (0, .lock samplePrUpdate) w (.ok ⟨⟩)
      { w with holder := some ⟨0, samplePrUpdate, w.registry.index⟩ }) :
    Returns E (withStoreLock 0 samplePrUpdate) w ⟨⟩ w.afterPr := by
  refine returns_bind.mpr ⟨⟨⟩, _, returns_attempt.mpr hlock, ?_⟩
  refine returns_bind.mpr ⟨⟨⟩, { w.afterPr with
    holder := some ⟨0, samplePrUpdate, w.registry.index⟩ }, returns_onError.mpr ?_, ?_⟩
  · exact returns_invoke (a := .writeActiveRecord sampleWithPr) hE trivial
      ⟨_, rfl, rfl, .inl ⟨validChangeId_sample, rfl, rfl⟩⟩
  · exact returns_invoke (a := .unlock) hE trivial ⟨_, rfl, rfl, rfl, rfl⟩

/-- The record as it is archived. -/
def sampleClosed : ChangeRecord := { sampleRecord with state := .closed }

def sampleCloseUpdate : StoreUpdate := .close sampleRecord sampleClosed true false

/-- The world after the change was closed. -/
def ChangesWorld.afterClose (w : ChangesWorld (Fin 2)) : ChangesWorld (Fin 2) where
  registry := Registry.archiveActiveRecord {
    index := w.registry.index.clearMappingsForChange "ch-1"
    active := w.registry.active.put sampleClosed validChangeId_sample
    archive := w.registry.archive } "ch-1"
  branches := w.branches
  workspaces := w.workspaces
  holder := none
  log := w.log ++ [⟨1, .closed sampleClosed true⟩]

/-- The change is closed by force. -/
theorem returns_closeChange (hE : AllowsPlain E) (hworkspaces : w.workspaces = ∅)
    (hrecord : w.registry.active.lookup "ch-1" = some sampleRecord)
    (hlock : E (1, .lock sampleCloseUpdate) w (.ok ⟨⟩)
      { w with holder := some ⟨1, sampleCloseUpdate, w.registry.index⟩ }) :
    Returns E (closeChange 1 sampleCloseArgs) w ⟨⟩ w.afterClose := by
  have hresolved : Returns E (ensureLinkedWorkspacesResolved 1 sampleRecord true) w ⟨⟩ w := by
    refine returns_bind.mpr ⟨[], w, ?_, returns_pure.mpr ⟨rfl, rfl⟩⟩
    refine returns_bind.mpr ⟨false, w, ?_, ?_⟩
    · exact returns_invoke (a := .workspaceExists "ch-1") hE trivial ⟨by simp [hworkspaces], rfl⟩
    · exact returns_bind.mpr ⟨[], w, returns_pure.mpr ⟨rfl, rfl⟩, returns_pure.mpr ⟨rfl, rfl⟩⟩
  refine returns_bind.mpr ⟨sampleRecord, w, returns_readSample hE 1 hrecord, ?_⟩
  refine returns_bind.mpr ⟨⟨⟩, w, hresolved, ?_⟩
  refine returns_bind.mpr ⟨sampleRecord, w, returns_pure.mpr ⟨rfl, rfl⟩, ?_⟩
  refine returns_bind.mpr ⟨(false, false), w, returns_pure.mpr ⟨rfl, rfl⟩, ?_⟩
  refine returns_bind.mpr ⟨"t", w, returns_outside hE 1 .nowTimestamp "t", ?_⟩
  let held : Held (Fin 2) := ⟨1, sampleCloseUpdate, w.registry.index⟩
  refine returns_bind.mpr ⟨⟨⟩, { w with holder := some held }, returns_attempt.mpr hlock, ?_⟩
  refine returns_bind.mpr ⟨⟨⟩, { w.afterClose with holder := some held },
    returns_onError.mpr ?_, ?_⟩
  · let w₁ : ChangesWorld (Fin 2) := { w with
      holder := some held
      registry := { w.registry with
        active := w.registry.active.put sampleClosed validChangeId_sample } }
    let w₂ : ChangesWorld (Fin 2) := { w₁ with
      registry := { w₁.registry with index := w.registry.index.clearMappingsForChange "ch-1" } }
    refine returns_bind.mpr ⟨⟨⟩, w₁, ?_, ?_⟩
    · exact returns_invoke (a := .writeActiveRecord sampleClosed) hE trivial
        ⟨held, rfl, rfl, .inl ⟨validChangeId_sample, rfl, rfl⟩⟩
    refine returns_bind.mpr ⟨w.registry.index, w₁, ?_, ?_⟩
    · exact returns_invoke (a := .readIndex) hE trivial (.inl ⟨rfl, rfl⟩)
    refine returns_bind.mpr ⟨⟨⟩, w₂, ?_, ?_⟩
    · exact returns_invoke (a := .writeIndex _) hE trivial ⟨held, rfl, rfl, .inl ⟨rfl, rfl⟩⟩
    refine returns_bind.mpr ⟨true, _, ?_, returns_pure.mpr ⟨rfl, rfl⟩⟩
    have hput : w₂.registry.active.lookup "ch-1" = some sampleClosed :=
      (ActiveRecords.lookup_put _ sampleClosed validChangeId_sample _).trans (if_pos rfl)
    exact returns_invoke (a := .archiveActiveRecord "ch-1") hE trivial
      ⟨held, rfl, rfl, .inl ⟨congrArg Option.isSome hput, rfl, rfl⟩⟩
  · exact returns_invoke (a := .unlock) hE trivial ⟨held, rfl, rfl, rfl, rfl⟩

theorem lookup_sampleRegistry : sampleRegistry.active.lookup "ch-1" = some sampleRecord :=
  (ActiveRecords.lookup_put _ _ validChangeId_sample _).trans (if_pos rfl)

theorem closes_of_did {e : Effect} (h : (sampleCommands 1).Did e) : e.Closes "ch-1" := by
  cases e with
  | closed record force => exact ⟨record, force, rfl, h.1⟩
  | _ => exact h.elim

theorem stores_of_did {e : Effect} (h : (sampleCommands 0).Did e) : e.Stores "ch-1" := by
  cases e with
  | stored id pr => exact ⟨pr, by rw [show id = "ch-1" from h]⟩
  | _ => exact h.elim

/-- The change is closed while its pull request is opened, and is active again. The store is not
as after the two commands in any order. -/
theorem pr_reopens_closed : ∃ events pool, Run ChangesAction.exec samplePool events pool ∧
    pool.progs 0 = .done (.ok ⟨⟩) ∧ pool.progs 1 = .done (.ok ⟨⟩) ∧ pool.state.holder = none ∧
      (∃ record ∈ pool.state.registry.archive, record.changeId = "ch-1") ∧
        pool.state.registry.active.lookup "ch-1" = some sampleWithPr ∧
          ¬ ∃ log : List (Entry (Fin 2)), (log.map Entry.who).Perm [0, 1] ∧
            (∀ e ∈ log, (sampleCommands e.who).Did e.effect) ∧
              Replays sampleRegistry log pool.state.registry := by
  have hE : AllowsPlain ChangesAction.exec := fun _ _ _ _ _ _ h => h
  let w₀ : ChangesWorld (Fin 2) := samplePool.state
  have hnil : Run ChangesAction.exec samplePool [] samplePool := .nil
  obtain ⟨events₁, hrun₁⟩ := hnil.runs (i := 0)
    (runs_prChange (w := w₀) hE lookup_sampleRegistry (by decide +kernel))
  obtain ⟨events₂, hrun₂⟩ := hrun₁.runs (i := 1)
    (returns_closeChange (w := w₀) hE rfl lookup_sampleRegistry (.inl ⟨rfl, rfl, rfl⟩))
  -- The record that was read before is written back.
  obtain ⟨events₃, hrun₃⟩ := hrun₂.runs (i := 0)
    (returns_prUpdate (w := w₀.afterClose) hE (.inl ⟨rfl, rfl, rfl⟩))
  have hactive : w₀.afterClose.afterPr.registry.active.lookup "ch-1" = some sampleWithPr :=
    (ActiveRecords.lookup_put _ sampleWithPr validChangeId_sample _).trans (if_pos rfl)
  have harchive : w₀.afterClose.afterPr.registry.archive = [sampleClosed] := by
    show [] ++ Option.toList _ = _
    rw [List.nil_append]
    exact congrArg Option.toList
      ((ActiveRecords.lookup_put _ sampleClosed validChangeId_sample _).trans (if_pos rfl))
  refine ⟨_, _, hrun₃, rfl, rfl, rfl, ?_, hactive, ?_⟩
  · exact ⟨sampleClosed, harchive ▸ List.mem_singleton_self _, rfl⟩
  rintro ⟨log, hperm, hdid, hreplays⟩
  obtain ⟨a, b, rfl⟩ : ∃ a b, log = [a, b] := by
    have hlength := hperm.length_eq
    rw [List.length_map] at hlength
    exact List.length_eq_two.mp hlength
  cases hreplays with
  | cons ha hrest =>
    cases hrest with
    | cons hb hnil =>
      cases hnil
      have hdidA := hdid a List.mem_cons_self
      have hdidB := hdid b (List.mem_cons_of_mem _ List.mem_cons_self)
      have horders : ∀ x y : Fin 2, [x, y].Perm [0, 1] → x = 0 ∧ y = 1 ∨ x = 1 ∧ y = 0 := by
        decide
      rcases horders _ _ hperm with ⟨-, hwho⟩ | ⟨hwho, hwho'⟩
      · rw [hwho] at hdidB
        have hnone := hb.inactive_of_closes (closes_of_did hdidB)
        exact Option.some_ne_none _ (hactive.symm.trans hnone)
      · rw [hwho] at hdidA
        rw [hwho'] at hdidB
        have hnone := ha.inactive_of_closes (closes_of_did hdidA)
        exact hb.active_of_stores (stores_of_did hdidB) hnone

/-- A pull request that is opened while nothing else is done. -/
theorem changes_serialized_pr : ∃ events pool, Run undisturbedExec samplePool events pool ∧
    pool.progs 0 = .done (.ok ⟨⟩) ∧ Serialized sampleCommands sampleRegistry events pool := by
  have hE : AllowsPlain undisturbedExec := by
    refine fun i a w v w' ha h => ⟨h, ?_, fun _ _ _ _ _ => nofun, fun _ _ => nofun, ?_⟩
    · rintro update rfl
      exact ha.elim
    · rintro name epoch rfl
      exact ha.elim
  let w₀ : ChangesWorld (Fin 2) := samplePool.state
  have hlock : undisturbedExec (0, .lock samplePrUpdate) w₀ (.ok ⟨⟩)
      { w₀ with holder := some ⟨0, samplePrUpdate, w₀.registry.index⟩ } := by
    refine ⟨.inl ⟨rfl, rfl, rfl⟩, ?_, fun _ _ _ _ _ => nofun, fun _ _ => nofun, nofun⟩
    rintro update ⟨⟩ -
    exact lookup_sampleRegistry
  have hnil : Run undisturbedExec samplePool [] samplePool := .nil
  obtain ⟨events₁, hrun₁⟩ := hnil.runs (i := 0)
    (runs_prChange (w := w₀) hE lookup_sampleRegistry (by decide +kernel))
  obtain ⟨events₂, hrun₂⟩ := hrun₁.runs (i := 0) (returns_prUpdate (w := w₀) hE hlock)
  exact ⟨_, _, hrun₂, rfl,
    changes_serialized id sampleCommands sampleRegistry sampleBranches ∅ hrun₂⟩

end Reopened

end Maw.Changes
