import Maw.Changes.Commands
import Maw.Changes.Effects

/-!
# Commands on changes that fail

A creation whose primary workspace fails is rolled back, and a close that fails leaves the change
active, so that it can be repeated. The index always names active records that have the branch or
the workspace. All of this takes that some steps do not fail: the update with which a change is
created once its branch is there, its rollback, the second write of a binding, and whatever
follows the deletion of the branch in a close. A rollback also does not bring back mappings that
the creation has replaced.

## Main definitions

* `Completes` — these steps do not fail.
* `IndexSound` — each entry of the index names an active record.
* `HalfClosed` — a close has failed, and its change is still active.
* `Reachable` — the states that the commands lead to, one after the other.

## Main results

* `alone_createChange` — a creation that fails changes neither the store nor the branches.
* `alone_closeChange` — a close that fails leaves its change active.
* `reachable_indexSound` — the index is sound in every reachable state.
-/

open Interleaved

namespace Maw.Changes

variable {ι : Type} [DecidableEq ι]

/-! ### Steps that do not fail -/

/-- The calls that must not fail: those of a creation and of a rollback, the second write of a
binding, and those of a close that has deleted the branch. -/
def MustFinish : StoreUpdate → ChangesAction → Bool
  | .create _, _ | .rollback _, _ => true
  | .close _ _ _ localDeleted, _ => localDeleted
  | .bind .., .writeActiveRecord _ => true
  | _, _ => false

/-- The steps that nothing makes good do not fail, and a creation that is rolled back has replaced
no mappings. -/
structure Completes (op : ι × ChangesAction) (w : ChangesWorld ι)
    (r : Except ChangesError op.2.Ret) : Prop where
  locks : ∀ update, op.2 = .lock update → MustFinish update op.2 → ∀ e, r ≠ .error e
  updates : ∀ held, w.holder = some held → held.who = op.1 → MustFinish held.update op.2 →
    ∀ e, r ≠ .error e
  rollsBack : ∀ branch, op.2 = .deleteRef branch true → ∀ e, r ≠ .error e
  pushes : ∀ branch, op.2 = .outside (.pushDelete branch) → ∀ e, r ≠ .error e
  replaces : ∀ changeId, op.2 = .lock (.rollback changeId) →
    ∀ before who record found, w.log = before ++ [⟨who, .created record found⟩] →
      found.byBranch.lookup record.git.changeBranch = none ∧
        found.byWorkspace.lookup record.workspaces.primary = none

def completeExec (op : ι × ChangesAction) (w : ChangesWorld ι)
    (r : Except ChangesError op.2.Ret) (w' : ChangesWorld ι) : Prop :=
  ChangesAction.exec op w r w' ∧ Completes op w r

/-! ### The index -/

/-- Each entry of the index names an active record that has the branch or the workspace. -/
structure IndexSound (reg : Registry) : Prop where
  branch : ∀ name id, reg.index.byBranch.lookup name = some id →
    ∃ record, reg.active.lookup id = some record ∧ record.git.changeBranch = name
  workspace : ∀ name id, reg.index.byWorkspace.lookup name = some id →
    ∃ record, reg.active.lookup id = some record ∧ name ∈ record.workspaces.linked

namespace IndexSound

variable {reg : Registry}

/-- A change without a record is not in the index. -/
theorem omits (h : IndexSound reg) {id : String} (hnone : reg.active.lookup id = none) :
    reg.index.Omits id := by
  constructor
  · intro key hkey
    obtain ⟨record, hrecord, -⟩ := h.branch key id hkey
    rw [hnone] at hrecord
    cases hrecord
  · intro key hkey
    obtain ⟨record, hrecord, -⟩ := h.workspace key id hkey
    rw [hnone] at hrecord
    cases hrecord

/-- Records that keep their branch and their workspaces keep the index sound, also if it has fewer
entries. -/
theorem of_within {reg' : Registry} (h : IndexSound reg) (hwithin : reg'.index.Within reg.index)
    (hkeeps : ∀ id record, (∃ key, reg'.index.byBranch.lookup key = some id) ∨
      (∃ key, reg'.index.byWorkspace.lookup key = some id) →
      reg.active.lookup id = some record → ∃ record', reg'.active.lookup id = some record' ∧
        record'.git.changeBranch = record.git.changeBranch ∧
          record.workspaces.linked ⊆ record'.workspaces.linked) : IndexSound reg' := by
  constructor
  · intro name id hname
    obtain ⟨record, hrecord, hbranch⟩ := h.branch name id (hwithin.1 name id hname)
    obtain ⟨record', hrecord', hsame, -⟩ := hkeeps id record (.inl ⟨name, hname⟩) hrecord
    exact ⟨record', hrecord', hsame.trans hbranch⟩
  · intro name id hname
    obtain ⟨record, hrecord, hlinked⟩ := h.workspace name id (hwithin.2 name id hname)
    obtain ⟨record', hrecord', -, hsubset⟩ := hkeeps id record (.inr ⟨name, hname⟩) hrecord
    exact ⟨record', hrecord', hsubset hlinked⟩

/-- A record that is written with its branch and its workspaces keeps the index sound. -/
theorem put (h : IndexSound reg) (read record : ChangeRecord)
    (hid : validChangeId record.changeId)
    (hread : ∀ r, reg.active.lookup record.changeId = some r → r = read)
    (hbranch : record.git.changeBranch = read.git.changeBranch)
    (hlinked : read.workspaces.linked ⊆ record.workspaces.linked) :
    IndexSound { reg with active := reg.active.put record hid } := by
  refine h.of_within (.refl _) fun id old _ hold => ?_
  by_cases heq : id = record.changeId
  · obtain rfl := hread old (heq ▸ hold)
    exact ⟨record, (ActiveRecords.lookup_put _ _ hid id).trans (if_pos heq), hbranch, hlinked⟩
  · exact ⟨old, (ActiveRecords.lookup_put _ _ hid id).trans ((if_neg heq).trans hold), rfl,
      List.Subset.refl _⟩

theorem setBranch (h : IndexSound reg) {name id : String} {record : ChangeRecord}
    (hrecord : reg.active.lookup id = some record) (hbranch : record.git.changeBranch = name) :
    IndexSound { reg with index := reg.index.setBranchMapping name id } := by
  refine ⟨fun key v hv => ?_, h.workspace⟩
  rw [ChangeIndex.byBranch_setBranchMapping] at hv
  split_ifs at hv with hkey
  · obtain rfl := Option.some.inj hv
    exact ⟨record, hrecord, hbranch.trans hkey.symm⟩
  · exact h.branch key v hv

theorem setWorkspace (h : IndexSound reg) {name id : String} {record : ChangeRecord}
    (hrecord : reg.active.lookup id = some record) (hlinked : name ∈ record.workspaces.linked) :
    IndexSound { reg with index := reg.index.setWorkspaceMapping name id } := by
  refine ⟨h.branch, fun key v hv => ?_⟩
  rw [ChangeIndex.byWorkspace_setWorkspaceMapping] at hv
  split_ifs at hv with hkey
  · obtain rfl := Option.some.inj hv
    exact ⟨record, hrecord, hkey ▸ hlinked⟩
  · exact h.workspace key v hv

/-- Without the mappings of a change, its record may go. -/
theorem clear (h : IndexSound reg) (id : String) (archive : List ChangeRecord) :
    IndexSound ⟨reg.index.clearMappingsForChange id, reg.active.remove id, archive⟩ := by
  refine h.of_within (reg.index.clear_within id) fun id' record hentry hrecord => ?_
  have hne : id' ≠ id := by
    rcases hentry with ⟨key, hkey⟩ | ⟨key, hkey⟩
    · rw [ChangeIndex.byBranch_clear] at hkey
      simpa using (Option.filter_eq_some_iff.mp hkey).2
    · rw [ChangeIndex.byWorkspace_clear] at hkey
      simpa using (Option.filter_eq_some_iff.mp hkey).2
  exact ⟨record, (ActiveRecords.lookup_remove ..).trans ((if_neg hne).trans hrecord), rfl,
    List.Subset.refl _⟩

/-- Every effect keeps the index sound. -/
theorem applies (h : IndexSound reg) {e : Effect} {reg' : Registry} (he : e.Applies reg reg')
    (hown : ∀ record found, e = .created record found →
      record.workspaces.primary ∈ record.workspaces.linked) : IndexSound reg' := by
  cases he with
  | created record found hid habsent _ =>
    have hput := h.put record record hid (fun r hr => by rw [habsent] at hr; cases hr) rfl
      (List.Subset.refl _)
    have hrecord : (reg.active.put record hid).lookup record.changeId = some record :=
      (ActiveRecords.lookup_put _ _ hid _).trans (if_pos rfl)
    exact (hput.setBranch hrecord rfl).setWorkspace hrecord (hown record found rfl)
  | bound read name hid hread =>
    have hput := h.put read (read.link name) hid
      (fun r hr => Option.some.inj (hr.symm.trans hread)) rfl (read.linked_subset_link name)
    exact hput.setWorkspace ((ActiveRecords.lookup_put _ _ hid _).trans (if_pos rfl))
      (read.mem_linked_link name)
  | stored read pr hid hread =>
    exact h.put read { read with pr := some pr } hid
      (fun r hr => Option.some.inj (hr.symm.trans hread)) rfl (List.Subset.refl _)
  | closed read record force hread hclosed => exact h.clear _ _

end IndexSound

/-! ### One command on its own -/

section Alone

/-- Triples of a command while nothing else is done. -/
abbrev Alone {α : Type} (P : ChangesWorld ι → Prop) (p : ChangesProg ι α)
    (R : α → ChangesWorld ι → Prop) (F : ChangesWorld ι → Prop) : Prop :=
  Triple completeExec (fun _ _ => False) (fun _ _ => True) P p R F

omit [DecidableEq ι] in
theorem stable_alone (P : ChangesWorld ι → Prop) : Stable (fun _ _ => False) P :=
  fun _ _ h => h.elim

variable {i : ι} {α β : Type} {P F : ChangesWorld ι → Prop} {w : ChangesWorld ι}

theorem alone_invoke {a : ChangesAction} {R : a.Ret → ChangesWorld ι → Prop}
    (h : ∀ w r w', P w → completeExec (i, a) w r w' → Ends R F r w') :
    Alone P (invoke i a) R F :=
  triple_attempt (stable_alone _) (fun _ => stable_alone _) (stable_alone _)
    fun w r w' hw hexec => ⟨trivial, h w r w' hw hexec⟩

theorem alone_bind {p : ChangesProg ι α} {f : α → ChangesProg ι β}
    {R : α → ChangesWorld ι → Prop} {R' : β → ChangesWorld ι → Prop} (hp : Alone P p R F)
    (hf : ∀ a, Alone (R a) (f a) R' F) : Alone P (p >>= f) R' F :=
  triple_bind (stable_alone F) hp hf

theorem alone_pure {a : α} {R : α → ChangesWorld ι → Prop} (h : ∀ w, P w → R a w) :
    Alone P (pure a : ChangesProg ι α) R F :=
  triple_pure (stable_alone P) h

theorem alone_throw {e : ChangesError} {R : α → ChangesWorld ι → Prop} (h : ∀ w, P w → F w) :
    Alone P (throw e : ChangesProg ι α) R F :=
  triple_throw (stable_alone P) h

/-- The calls that read change nothing. -/
theorem eq_of_reads {op : ι × ChangesAction} {r : Except ChangesError op.2.Ret}
    {w' : ChangesWorld ι} (hop : ReadsOf i op) (h : ChangesAction.exec op w r w') : w' = w := by
  obtain ⟨j, a⟩ := op
  obtain ⟨-, ha⟩ := hop
  cases a with
  | outside call => exact h.1
  | readActiveRecord id =>
    rcases h with ⟨-, -, hw⟩ | ⟨-, hw⟩
    · exact hw
    · exact hw
  | readIndex | readRef branch =>
    rcases h with ⟨-, hw⟩ | ⟨-, hw⟩
    · exact hw
    · exact hw
  | workspaceExists name => exact h.2
  | _ => exact ha.elim

/-- The frame rule: a program that only reads. -/
theorem alone_reads {p : ChangesProg ι α} (hp : p.run.Only (ReadsOf i)) (hF : ∀ w, P w → F w) :
    Alone P p (fun _ => P) F := by
  refine triple_of_only (stable_alone P) ?_ hF hp
  rintro op w r w' hop hw ⟨hexec, -⟩
  obtain rfl := eq_of_reads hop hexec
  exact ⟨trivial, hw⟩

theorem alone_readActiveRecord (id : String) (w : ChangesWorld ι) (hF : F w) :
    Alone (· = w) (invoke i (.readActiveRecord id))
      (fun o w' => w.registry.active.lookup id = o ∧ w' = w) F := by
  refine alone_invoke ?_
  rintro _ r w' rfl ⟨⟨-, rfl, rfl⟩ | ⟨rfl, rfl⟩, -⟩
  · exact ⟨rfl, rfl⟩
  · exact hF

/-- A record that was read is the active one. -/
theorem alone_readRecord (id : String) (w : ChangesWorld ι) (hF : F w) :
    Alone (· = w) (invoke i (.readActiveRecord id) >>= expectRecord id)
      (fun record w' => w.registry.active.lookup id = some record ∧ w' = w) F := by
  refine alone_bind (alone_readActiveRecord id w hF) fun o => triple_of_fact fun hrecord => ?_
  cases o with
  | none => exact alone_throw fun _ h => h ▸ hF
  | some record => exact alone_pure fun _ hw => ⟨hrecord, hw⟩

/-- The postconditions of an update are those of the states after the lock is given back. -/
theorem alone_withStoreLock {update : StoreUpdate} {R : ChangesWorld ι → Prop}
    (hlock : MustFinish update (.lock update) = false → F w)
    (hrun : w.holder = none → Completes (i, .lock update) w (.ok ()) → Alone
      (· = { w with holder := some ⟨i, update, w.registry.index⟩ }) (update.run i)
      (fun _ w' => R { w' with holder := none }) fun w' => F { w' with holder := none }) :
    Alone (· = w) (withStoreLock i update) (fun _ => R) F := by
  have hunlock (Q Q' : ChangesWorld ι → Prop) :
      Alone (fun w' => Q { w' with holder := none }) (invoke i .unlock) (fun _ => Q) Q' := by
    refine alone_invoke ?_
    rintro w' r w'' hw ⟨⟨held, -, -, rfl, rfl⟩, -⟩
    exact hw
  refine alone_bind (R := fun _ w' => (w.holder = none ∧ Completes (i, .lock update) w (.ok ())) ∧
    w' = { w with holder := some ⟨i, update, w.registry.index⟩ }) ?_ fun _ => ?_
  · refine alone_invoke ?_
    rintro _ r w' rfl ⟨⟨hfree, rfl, rfl⟩ | ⟨rfl, rfl⟩, hcompletes⟩
    · exact ⟨⟨hfree, hcompletes⟩, rfl⟩
    · refine hlock ?_
      by_contra hmust
      exact hcompletes.locks update rfl (by simpa using hmust) _ rfl
  refine triple_of_fact fun hlocked => ?_
  refine alone_bind ?_ fun _ => hunlock R F
  refine triple_onError (fun _ => stable_alone _) (hrun hlocked.1 hlocked.2) ?_ (stable_alone F)
  refine Meets.imp (hunlock F F) ?_
  rintro (e | u) w' hw
  · exact hw
  · exact hw

section Held

variable {update : StoreUpdate} {found : ChangeIndex} {reg : Registry}

/-- A call under the lock that fails and changes nothing, or has one outcome. -/
theorem alone_inside {a : ChangesAction} {R : a.Ret → ChangesWorld ι → Prop}
    (hheld : w.holder = some ⟨i, update, found⟩) (hF : MustFinish update a = false → F w)
    (h : ∀ r w', ChangesAction.exec (i, a) w r w' →
      ChangesAction.Fails w r w' ∨ ∃ v, r = .ok v ∧ R v w') :
    Alone (· = w) (invoke i a) R F := by
  refine alone_invoke ?_
  rintro _ r w' rfl ⟨hexec, hcompletes⟩
  rcases h r w' hexec with ⟨rfl, rfl⟩ | ⟨v, rfl, hv⟩
  · refine hF ?_
    by_contra hmust
    exact hcompletes.updates _ hheld rfl (by simpa using hmust) _ rfl
  · exact hv

theorem alone_readIndex (hheld : w.holder = some ⟨i, update, found⟩)
    (hF : MustFinish update .readIndex = false → F w) :
    Alone (· = w) (invoke i .readIndex) (fun index w' => index = w.registry.index ∧ w' = w) F := by
  refine alone_inside hheld hF ?_
  rintro r w' (⟨rfl, rfl⟩ | hfails)
  · exact .inr ⟨_, rfl, rfl, rfl⟩
  · exact .inl hfails

theorem alone_writeIndex (index : ChangeIndex) (hheld : w.holder = some ⟨i, update, found⟩)
    (hF : MustFinish update (.writeIndex index) = false → F w) :
    Alone (· = w) (invoke i (.writeIndex index))
      (fun _ w' => w' = { w with registry := { w.registry with index } }) F := by
  refine alone_inside hheld hF ?_
  rintro r w' ⟨-, -, -, ⟨rfl, rfl⟩ | hfails⟩
  · exact .inr ⟨_, rfl, rfl⟩
  · exact .inl hfails

theorem alone_writeActiveRecord (record : ChangeRecord)
    (hheld : w.holder = some ⟨i, update, found⟩)
    (hF : MustFinish update (.writeActiveRecord record) = false → F w) :
    Alone (· = w) (invoke i (.writeActiveRecord record))
      (fun _ w' => ∃ hid : validChangeId record.changeId, w' = { w with
        registry := { w.registry with active := w.registry.active.put record hid }
        log := if update.isClose then w.log else Held.note ⟨i, update, found⟩ w.log }) F := by
  refine alone_inside hheld hF ?_
  rintro r w' ⟨held, hheld', -, ⟨hid, rfl, rfl⟩ | hfails⟩
  · obtain rfl := Option.some.inj (hheld.symm.trans hheld')
    exact .inr ⟨_, rfl, hid, rfl⟩
  · exact .inl hfails

theorem alone_deleteActiveRecord (id : String) (hheld : w.holder = some ⟨i, update, found⟩)
    (hF : MustFinish update (.deleteActiveRecord id) = false → F w) :
    Alone (· = w) (invoke i (.deleteActiveRecord id))
      (fun _ w' => w' = { w with
        registry := { w.registry with active := w.registry.active.remove id }
        log := Held.note ⟨i, update, found⟩ w.log }) F := by
  refine alone_inside hheld hF ?_
  rintro r w' ⟨held, hheld', -, ⟨rfl, rfl⟩ | hfails⟩
  · obtain rfl := Option.some.inj (hheld.symm.trans hheld')
    exact .inr ⟨_, rfl, rfl⟩
  · exact .inl hfails

theorem alone_archiveActiveRecord (id : String) (hheld : w.holder = some ⟨i, update, found⟩)
    (hid : (w.registry.active.lookup id).isSome)
    (hF : MustFinish update (.archiveActiveRecord id) = false → F w) :
    Alone (· = w) (invoke i (.archiveActiveRecord id))
      (fun archived w' => archived = true ∧ w' = { w with
        registry := w.registry.archiveActiveRecord id
        log := Held.note ⟨i, update, found⟩ w.log }) F := by
  refine alone_inside hheld hF ?_
  rintro r w' ⟨held, hheld', -, ⟨-, rfl, rfl⟩ | ⟨hnone, -, -⟩ | hfails⟩
  · obtain rfl := Option.some.inj (hheld.symm.trans hheld')
    exact .inr ⟨_, rfl, rfl, rfl⟩
  · rw [hnone] at hid
    cases hid
  · exact .inl hfails

end Held

/-! ### The updates on their own -/

/-- A creation is an effect, and its update does not fail. -/
theorem alone_createUpdate {record : ChangeRecord}
    (habsent : w.registry.active.lookup record.changeId = none) :
    Alone (· = w) (withStoreLock i (.create record))
      (fun _ w' => ∃ reg, (Effect.created record w.registry.index).Applies w.registry reg ∧
        w' = { w with
          registry := reg
          log := w.log ++ [⟨i, .created record w.registry.index⟩] }) F := by
  refine alone_withStoreLock nofun fun hfree _ => ?_
  refine alone_bind (alone_readIndex rfl nofun) fun index => triple_of_fact ?_
  rintro rfl
  refine alone_bind (alone_writeIndex _ rfl nofun) fun _ => ?_
  refine (alone_writeActiveRecord record rfl nofun).imp ?_ fun _ h => h
  rintro _ _ ⟨hid, rfl⟩
  refine ⟨_, .created record _ hid habsent (.refl _), ?_⟩
  rw [← hfree]
  rfl

theorem Effect.Applies.absent {reg reg' : Registry} {record : ChangeRecord} {found : ChangeIndex}
    (h : (Effect.created record found).Applies reg reg') :
    reg.active.lookup record.changeId = none := by
  cases h with
  | created _ _ _ habsent _ => exact habsent

/-- The store is as before the creation that is rolled back. -/
theorem alone_rollbackUpdate {record : ChangeRecord} {reg : Registry} {before : List (Entry ι)}
    (hsound : IndexSound reg)
    (happlies : (Effect.created record reg.index).Applies reg w.registry)
    (hlog : w.log = before ++ [⟨i, .created record reg.index⟩]) :
    Alone (· = w) (withStoreLock i (.rollback record.changeId))
      (fun _ w' => ∃ log, w' = { w with registry := reg, log }) F := by
  refine alone_withStoreLock nofun fun hfree hcompletes => ?_
  obtain ⟨hbranch, hworkspace⟩ := hcompletes.replaces _ rfl before i record reg.index hlog
  refine alone_bind (alone_readIndex rfl nofun) fun index => triple_of_fact ?_
  rintro rfl
  refine alone_bind (alone_writeIndex _ rfl nofun) fun _ => ?_
  refine (alone_deleteActiveRecord _ rfl nofun).imp ?_ fun _ h => h
  rintro _ _ rfl
  have hundone := happlies.undo_created (hsound.omits happlies.absent) hbranch hworkspace
  refine ⟨Held.note ⟨i, .rollback record.changeId, w.registry.index⟩ w.log, ?_⟩
  rw [← hundone, ← hfree]
  rfl

/-- A binding is an effect, or it fails and changes nothing. -/
theorem alone_bindUpdate {read : ChangeRecord} (name : String)
    (hread : w.registry.active.lookup read.changeId = some read) (hF : F w) :
    Alone (· = w) (withStoreLock i (.bind read name read.changeId))
      (fun _ w' => ∃ reg log, (Effect.bound read.changeId name).Applies w.registry reg ∧
        w' = { w with registry := reg, log }) F := by
  refine alone_withStoreLock (fun _ => hF) fun hfree _ => ?_
  have hF' : F { w with holder := none } := by rwa [← hfree]
  refine alone_bind (alone_readIndex rfl fun _ => hF') fun index => triple_of_fact ?_
  rintro rfl
  refine alone_bind (alone_writeIndex _ rfl fun _ => hF') fun _ => ?_
  refine (alone_writeActiveRecord _ rfl nofun).imp ?_ fun _ h => h
  rintro _ _ ⟨hid, rfl⟩
  refine ⟨_, Held.note ⟨i, .bind read name read.changeId, w.registry.index⟩ w.log,
    .bound read name hid hread, ?_⟩
  rw [← hfree]
  rfl

theorem alone_prUpdate {read : ChangeRecord} (pr : ChangePr)
    (hread : w.registry.active.lookup read.changeId = some read) (hF : F w) :
    Alone (· = w) (withStoreLock i (.pr read pr))
      (fun _ w' => ∃ reg log, (Effect.stored read.changeId pr).Applies w.registry reg ∧
        w' = { w with registry := reg, log }) F := by
  refine alone_withStoreLock (fun _ => hF) fun hfree _ => ?_
  have hF' : F { w with holder := none } := by rwa [← hfree]
  have hwrite : Alone (· = { w with holder := some ⟨i, .pr read pr, w.registry.index⟩ })
      ((StoreUpdate.pr read pr).run i) _ fun w' => F { w' with holder := none } :=
    alone_writeActiveRecord _ rfl fun _ => hF'
  refine hwrite.imp ?_ fun _ h => h
  rintro _ _ ⟨hid, rfl⟩
  refine ⟨_, Held.note ⟨i, .pr read pr, w.registry.index⟩ w.log, .stored read pr hid hread, ?_⟩
  rw [← hfree]
  rfl

/-- A store in which a close has failed: the change is still active. -/
structure HalfClosed (read : ChangeRecord) (reg reg' : Registry) : Prop where
  index : reg'.index.Within reg.index
  record : ∃ record, reg'.active.lookup read.changeId = some record ∧ ClosedFrom read record
  others : ∀ id, id ≠ read.changeId → reg'.active.lookup id = reg.active.lookup id
  archive : reg'.archive = reg.archive

theorem ClosedFrom.refl (read : ChangeRecord) : ClosedFrom read read :=
  ⟨read.state, read.pr, rfl, .inl rfl⟩

theorem HalfClosed.refl {read : ChangeRecord} {reg : Registry}
    (hread : reg.active.lookup read.changeId = some read) : HalfClosed read reg reg :=
  ⟨.refl _, ⟨read, hread, .refl read⟩, fun _ _ => rfl, rfl⟩

/-- The record is written first. -/
theorem HalfClosed.put {read record : ChangeRecord} {reg : Registry}
    (hclosed : ClosedFrom read record) (hid : validChangeId record.changeId) :
    HalfClosed read reg { reg with active := reg.active.put record hid } where
  index := .refl _
  record := ⟨record, (ActiveRecords.lookup_put _ _ hid _).trans (if_pos hclosed.changeId.symm),
    hclosed⟩
  others _ hne := (ActiveRecords.lookup_put _ _ hid _).trans
    (if_neg fun h => hne (h.trans hclosed.changeId))
  archive := rfl

theorem HalfClosed.clear {read : ChangeRecord} {reg reg' : Registry}
    (h : HalfClosed read reg reg') (id : String) :
    HalfClosed read reg { reg' with index := reg'.index.clearMappingsForChange id } :=
  ⟨(ChangeIndex.clear_within _ id).trans h.index, h.record, h.others, h.archive⟩

/-- A close is an effect, or the change is left active. If the branch is gone, it does not fail. -/
theorem alone_closeUpdate {read record : ChangeRecord} (force localDeleted : Bool)
    (hread : w.registry.active.lookup read.changeId = some read)
    (hclosed : ClosedFrom read record)
    (hF : localDeleted = false → ∀ reg, HalfClosed read w.registry reg →
      F { w with registry := reg }) :
    Alone (· = w) (withStoreLock i (.close read record force localDeleted))
      (fun _ w' => ∃ reg log, (Effect.closed record force).Applies w.registry reg ∧
        w' = { w with registry := reg, log }) F := by
  refine alone_withStoreLock (fun hmust => hF hmust _ (.refl hread)) fun hfree _ => ?_
  have hF' (hmust : localDeleted = false) (reg : Registry)
      (hreg : HalfClosed read w.registry reg) :
      F { w with registry := reg, holder := none } := by
    rw [← hfree]
    exact hF hmust reg hreg
  refine alone_bind (alone_writeActiveRecord record rfl fun hmust =>
    hF' hmust _ (.refl hread)) fun _ => triple_exists fun hid => ?_
  have hput : HalfClosed read w.registry
      { w.registry with active := w.registry.active.put record hid } := .put hclosed hid
  refine alone_bind (alone_readIndex rfl fun hmust => hF' hmust _ hput) fun index =>
    triple_of_fact ?_
  rintro rfl
  refine alone_bind (alone_writeIndex _ rfl fun hmust => hF' hmust _ hput) fun _ => ?_
  have hlookup : (w.registry.active.put record hid).lookup record.changeId = some record := by
    rw [ActiveRecords.lookup_put, if_pos rfl]
  refine alone_bind (alone_archiveActiveRecord _ rfl (by simp [hlookup]) fun hmust =>
    hF' hmust _ (hput.clear _)) fun archived => triple_of_fact ?_
  rintro rfl
  refine alone_pure ?_
  rintro _ rfl
  refine ⟨_, Held.note ⟨i, .close read record force localDeleted, w.registry.index⟩ w.log,
    .closed read record force hread hclosed, ?_⟩
  simp only [Registry.archiveActiveRecord, ActiveRecords.remove_put hid rfl, hlookup,
    Option.toList_some]
  rw [← hfree]
  rfl

/-! ### The commands on their own -/

theorem alone_bindWorkspaceToChange (name id : String) (hF : F w) :
    Alone (· = w) (bindWorkspaceToChange i name id)
      (fun _ w' => ∃ reg log, (Effect.bound id name).Applies w.registry reg ∧
        w' = { w with registry := reg, log }) F := by
  refine alone_bind (alone_readRecord id w hF) fun read => triple_of_fact fun hread => ?_
  obtain rfl := ActiveRecords.changeId_eq hread
  exact alone_bindUpdate name hread hF

/-- A workspace is created and bound. A failure leaves the directory at most, but for one that
comes after the binding. -/
theorem alone_createWithOutput (name id : String) (template : Bool)
    (hF : ∀ workspaces, F { w with workspaces })
    (hlate : template → ∀ workspaces reg log, (Effect.bound id name).Applies w.registry reg →
      F { w with workspaces, registry := reg, log }) :
    Alone (· = w) (createWithOutput i name id template)
      (fun _ w' => ∃ workspaces reg log, (Effect.bound id name).Applies w.registry reg ∧
        w' = { w with workspaces, registry := reg, log }) F := by
  have hread {α : Type} {p : ChangesProg ι α} (hp : p.run.Only (ReadsOf i)) :
      Alone (· = w) p (fun _ => (· = w)) F := by
    refine alone_reads hp ?_
    rintro _ rfl
    exact hF _
  have habsent : (invoke i (.workspaceExists name) >>= ensureWorkspaceAbsent name).run.Only
      (ReadsOf i) := by
    refine only_bind (only_invoke trivial) fun exists_ => ?_
    cases exists_ with
    | false => exact only_pure _
    | true => exact only_throw _
  have hattached : (resolveAttachedBranch i id).run.Only (ReadsOf i) :=
    only_bind (only_readRecord id) fun _ => only_pure _
  refine alone_bind (hread (only_invoke trivial)) fun _ => alone_bind (hread habsent) fun _ =>
    alone_bind (hread (only_invoke trivial)) fun _ =>
    alone_bind (hread (only_resolveWorkspaceSource id)) fun _ =>
    alone_bind (hread hattached) fun _ => alone_bind (hread (only_invoke trivial)) fun epoch => ?_
  have hadd : Alone (· = w) (invoke i (.addWorktree name epoch))
      (fun _ w' => w' = { w with workspaces := insert name w.workspaces }) F := by
    refine alone_invoke ?_
    rintro _ r w' rfl ⟨⟨rfl, rfl⟩ | ⟨rfl, rfl | rfl⟩, -⟩
    · rfl
    · exact hF w'.workspaces
    · exact hF _
  refine alone_bind hadd fun _ => ?_
  refine alone_bind (alone_reads (only_invoke trivial) ?_) fun _ => ?_
  · rintro _ rfl
    exact hF _
  refine alone_bind (alone_bindWorkspaceToChange name id (hF _)) fun _ =>
    triple_exists fun reg => triple_exists fun log => triple_of_fact fun hbound => ?_
  cases template with
  | false =>
    refine alone_pure ?_
    rintro _ rfl
    exact ⟨_, reg, log, hbound, rfl⟩
  | true =>
    refine alone_invoke ?_
    rintro _ r w' rfl ⟨⟨rfl, -⟩, -⟩
    rcases r with e | u
    · exact hlate rfl _ reg log hbound
    · exact ⟨_, reg, log, hbound, rfl⟩

/-- Once the branch is there, a creation succeeds or takes everything back. -/
theorem alone_registerChange (record : ChangeRecord) (hsound : IndexSound w.registry)
    (habsent : w.registry.active.lookup record.changeId = none)
    (hF : ∀ workspaces log, F { w with
      branches := w.branches.erase record.git.changeBranch, workspaces, log }) :
    Alone (· = w) (registerChange i record)
      (fun _ w' => ∃ reg workspaces reg' log,
        (Effect.created record w.registry.index).Applies w.registry reg ∧
          (Effect.bound record.changeId record.workspaces.primary).Applies reg reg' ∧
            w' = { w with workspaces, registry := reg', log }) F := by
  refine alone_bind (alone_createUpdate habsent) fun _ => triple_exists fun reg =>
    triple_of_fact fun hcreated => ?_
  refine triple_handle (E := fun w' => ∃ workspaces, w' = { w with
    registry := reg
    workspaces
    log := w.log ++ [⟨i, .created record w.registry.index⟩] })
    (fun _ => stable_alone _) ?_ fun cause => ?_
  · refine (alone_createWithOutput record.workspaces.primary record.changeId false
      (fun workspaces => ⟨workspaces, rfl⟩) nofun).imp ?_ fun _ h => h
    rintro _ _ ⟨workspaces, reg', log, hbound, rfl⟩
    exact ⟨reg, workspaces, reg', log, hcreated, hbound, rfl⟩
  · refine triple_exists fun workspaces => ?_
    refine alone_bind (R := fun _ => F) ?_ fun _ => alone_throw fun _ h => h
    refine alone_bind (alone_rollbackUpdate hsound hcreated rfl) fun _ =>
      triple_exists fun log => ?_
    refine triple_ignoreError (stable_alone F) ?_
    have hdelete : Alone (· = { w with registry := w.registry, workspaces, log })
        (invoke i (.deleteRef record.git.changeBranch true)) (fun _ => F) F := by
      refine alone_invoke ?_
      rintro _ r w' rfl ⟨⟨rfl, rfl⟩ | ⟨rfl, -⟩, hcompletes⟩
      · exact hF workspaces log
      · exact absurd rfl (hcompletes.rollsBack _ rfl _)
    refine Meets.imp hdelete ?_
    rintro (e | u) w' hw
    · exact hw
    · exact hw

theorem alone_readRef (branch : String) (hF : F w) :
    Alone (· = w) (invoke i (.readRef branch))
      (fun o w' => w.branches.lookup branch = o ∧ w' = w) F := by
  refine alone_invoke ?_
  rintro _ r w' rfl ⟨⟨rfl, rfl⟩ | ⟨rfl, rfl⟩, -⟩
  · exact ⟨rfl, rfl⟩
  · exact hF

theorem alone_ensureBranchAbsent (branch : String) (hF : F w) :
    Alone (· = w) (ensureBranchAbsent i branch)
      (fun _ w' => w.branches.lookup branch = none ∧ w' = w) F := by
  refine alone_bind (alone_readRef branch hF) fun o => triple_of_fact fun hbranch => ?_
  cases o with
  | none => exact alone_pure fun _ hw => ⟨hbranch, hw⟩
  | some oid => exact alone_throw fun _ h => h ▸ hF

/-- An id that is chosen is free. -/
theorem alone_generateChangeIdFrom (hash : String → String) (title : String) (attempts : ℕ)
    (hF : F w) : ∀ attempt, Alone (· = w) (generateChangeIdFrom i hash title attempt attempts)
      (fun id w' => w.registry.active.lookup id = none ∧ w' = w) F := by
  induction attempts with
  | zero => exact fun _ => alone_throw fun _ h => h ▸ hF
  | succ attempts ih =>
    intro attempt
    refine alone_bind (alone_readActiveRecord _ w hF) fun o => triple_of_fact fun hid => ?_
    cases o with
    | none => exact alone_pure fun _ hw => ⟨hid, hw⟩
    | some record => exact ih _

theorem alone_chooseChangeId (hash : String → String) (args : CreateArgs) (hF : F w) :
    Alone (· = w) (chooseChangeId i hash args)
      (fun id w' => w.registry.active.lookup id = none ∧ w' = w) F := by
  unfold chooseChangeId
  cases args.id with
  | none => exact alone_generateChangeIdFrom hash _ _ hF _
  | some explicitId =>
    dsimp only
    split_ifs
    · refine alone_bind (alone_readActiveRecord _ w hF) fun o => triple_of_fact fun hid => ?_
      cases o with
      | none => exact alone_pure fun _ hw => ⟨hid, hw⟩
      | some record => exact alone_throw fun _ h => h ▸ hF
    · exact alone_throw fun _ h => h ▸ hF

/-- The inference of the base branch passes over the errors of its call. -/
theorem alone_inferBaseBranch (spec : String) :
    Alone (· = w) (inferBaseBranch i spec) (fun _ => (· = w)) F := by
  unfold inferBaseBranch
  split
  · exact alone_pure fun _ h => h
  · exact alone_pure fun _ h => h
  · refine alone_bind (triple_asOption (fun _ => stable_alone _) (stable_alone _)
      (alone_reads (P := (· = w)) (F := (· = w)) (only_invoke trivial) fun _ h => h))
      fun known => ?_
    cases known with
    | none => exact alone_pure fun _ h => h
    | some b => exact alone_pure fun _ h => h

theorem alone_nowTimestamp : Alone (· = w) (outside i .nowTimestamp) (fun _ => (· = w)) F := by
  refine alone_invoke ?_
  rintro _ r w' rfl ⟨⟨rfl, hr⟩, -⟩
  rcases r with e | u
  · exact absurd rfl (hr e rfl).2
  · rfl

/-- A creation that fails leaves the store and the branches as they were. -/
theorem alone_createChange (hash : String → String) (args : CreateArgs)
    (hsound : IndexSound w.registry) (hF : ∀ workspaces log, F { w with workspaces, log }) :
    Alone (· = w) (createChange i hash args)
      (fun _ w' => ∃ record reg workspaces branches reg' log,
        record.workspaces.primary ∈ record.workspaces.linked ∧
        (Effect.created record w.registry.index).Applies w.registry reg ∧
          (Effect.bound record.changeId record.workspaces.primary).Applies reg reg' ∧
            w' = { w with workspaces, branches, registry := reg', log }) F := by
  have hw : F w := hF w.workspaces w.log
  have hread {α : Type} {p : ChangesProg ι α} (hp : p.run.Only (ReadsOf i)) :
      Alone (· = w) p (fun _ => (· = w)) F := alone_reads hp fun _ h => h ▸ hw
  refine alone_bind (hread (only_invoke trivial)) fun source =>
    alone_bind (hread (only_invoke trivial)) fun oid =>
    alone_bind (alone_chooseChangeId hash args hw) fun id => triple_of_fact fun habsent => ?_
  refine alone_bind (alone_ensureBranchAbsent _ hw) fun _ => triple_of_fact fun hbranch => ?_
  set branch := "feat/" ++ id ++ "-" ++ slugifyTitle args.title
  have hcreate : Alone (· = w) (invoke i (.createBranch branch oid))
      (fun _ w' => w' = { w with branches := w.branches.insert branch oid }) F := by
    refine alone_invoke ?_
    rintro _ r w' rfl ⟨⟨-, rfl, rfl⟩ | ⟨rfl, rfl⟩, -⟩
    · rfl
    · exact hw
  refine alone_bind hcreate fun _ => alone_bind (alone_inferBaseBranch _) fun base =>
    alone_bind alone_nowTimestamp fun createdAt => ?_
  have herase : (w.branches.insert branch oid).erase branch = w.branches := by
    rw [FiniteMap.erase_insert, FiniteMap.erase_of_not_mem (Finmap.lookup_eq_none.mp hbranch)]
  have hback (workspaces : Finset String) (log : List (Entry ι)) :
      F { w with branches := (w.branches.insert branch oid).erase branch, workspaces, log } := by
    rw [herase]
    exact hF workspaces log
  have hregister := alone_registerChange (i := i)
    (w := { w with branches := w.branches.insert branch oid })
    (newRecord args id oid base createdAt) hsound habsent hback
  refine hregister.imp ?_ fun _ h => h
  rintro _ _ ⟨reg, workspaces, reg', log, hcreated, hbound, rfl⟩
  exact ⟨_, reg, workspaces, _, reg', log, List.mem_singleton_self _, hcreated, hbound, rfl⟩

theorem alone_prChange (args : PrArgs) (hF : F w) :
    Alone (· = w) (prChange i args)
      (fun _ w' => ∃ pr reg log, (Effect.stored args.changeId pr).Applies w.registry reg ∧
        w' = { w with registry := reg, log }) F := by
  have hread {α : Type} {p : ChangesProg ι α} (hp : p.run.Only (ReadsOf i)) :
      Alone (· = w) p (fun _ => (· = w)) F := alone_reads hp fun _ h => h ▸ hF
  refine alone_bind (alone_readRecord args.changeId w hF) fun read =>
    triple_of_fact fun hrecord => ?_
  have hid := ActiveRecords.changeId_eq hrecord
  have hbranch : (ensureChangeBranch read : ChangesProg ι Unit).run.Only (ReadsOf i) :=
    only_ite (only_throw _) (only_pure _)
  refine alone_bind (hread hbranch) fun _ => alone_bind (hread (only_openPr ..)) fun pr => ?_
  refine (alone_prUpdate _ (hid ▸ hrecord) hF).imp ?_ fun _ h => h
  rintro _ _ ⟨reg, log, hstored, rfl⟩
  exact ⟨_, reg, log, hid ▸ hstored, rfl⟩

theorem alone_ensurePrMergedIfRequired (read : ChangeRecord) (force : Bool) (hF : F w) :
    Alone (· = w) (ensurePrMergedIfRequired i read force)
      (fun record w' => ClosedFrom read record ∧ w' = w) F := by
  unfold ensurePrMergedIfRequired
  split_ifs
  · exact alone_pure fun _ hw => ⟨.refl read, hw⟩
  · cases hpr : read.pr with
    | none => exact alone_throw fun _ h => h ▸ hF
    | some pr =>
      dsimp only
      split_ifs
      · exact alone_pure fun _ hw => ⟨.refl read, hw⟩
      · refine alone_bind (alone_reads (only_invoke trivial) fun _ h => h ▸ hF) fun view => ?_
        unfold markMerged
        split_ifs
        · exact alone_pure fun _ hw => ⟨⟨read.state, _, rfl, .inr ⟨pr, hpr, rfl⟩⟩, hw⟩
        · exact alone_throw fun _ h => h ▸ hF

/-- A deletion that fails leaves the branch. -/
theorem alone_deleteChangeBranch (branch : String) (deleteBranch deleteRemote force : Bool)
    (hF : F w) :
    Alone (· = w) (deleteChangeBranchIfRequested i branch deleteBranch deleteRemote force)
      (fun deleted w' => ∃ branches, (deleted.1 = false → branches = w.branches) ∧
        w' = { w with branches }) F := by
  have hread {α : Type} {p : ChangesProg ι α} (hp : p.run.Only (ReadsOf i)) :
      Alone (· = w) p (fun _ => (· = w)) F := alone_reads hp fun _ h => h ▸ hF
  unfold deleteChangeBranchIfRequested
  split_ifs with hrequested
  · exact alone_pure fun _ hw => ⟨_, fun _ => rfl, hw⟩
  refine alone_bind (hread (only_invoke trivial)) fun trunk => ?_
  by_cases htrunk : branch = trunk
  · rw [if_pos htrunk]
    exact alone_throw fun _ h => h ▸ hF
  rw [if_neg htrunk]
  refine alone_bind (hread (only_bind (only_invoke trivial) (only_expectBranch branch)))
    fun oid => alone_bind (hread (only_ensureMergedIntoHead branch oid force)) fun _ => ?_
  have hdelete : Alone (· = w) (invoke i (.deleteRef branch false))
      (fun _ w' => w' = { w with branches := w.branches.erase branch }) F := by
    refine alone_invoke ?_
    rintro _ r w' rfl ⟨⟨rfl, rfl⟩ | ⟨rfl, rfl⟩, -⟩
    · rfl
    · exact hF
  refine alone_bind hdelete fun _ => ?_
  unfold deleteRemoteBranch
  split_ifs
  · exact alone_pure fun _ hw => ⟨_, nofun, hw⟩
  refine alone_bind (R := fun _ w' => w' = { w with branches := w.branches.erase branch }) ?_
    fun _ => alone_pure fun _ hw => ⟨_, nofun, hw⟩
  refine alone_invoke ?_
  rintro _ r w' rfl ⟨⟨rfl, -⟩, hcompletes⟩
  rcases r with e | u
  · exact absurd rfl (hcompletes.pushes branch rfl e)
  · rfl

/-- A close that fails leaves the change active and the branches as they were. -/
theorem alone_closeChange (args : CloseArgs) (hF : F w)
    (hhalf : ∀ read reg, w.registry.active.lookup args.changeId = some read →
      HalfClosed read w.registry reg → F { w with registry := reg }) :
    Alone (· = w) (closeChange i args)
      (fun _ w' => ∃ record branches reg log,
        (Effect.closed record args.force).Applies w.registry reg ∧
          w' = { w with registry := reg, branches, log }) F := by
  refine alone_bind (alone_readRecord args.changeId w hF) fun read =>
    triple_of_fact fun hrecord => ?_
  have hread : w.registry.active.lookup read.changeId = some read := by
    rwa [ActiveRecords.changeId_eq hrecord]
  refine alone_bind (alone_reads (only_ensureLinkedWorkspacesResolved read args.force)
    fun _ h => h ▸ hF) fun _ => ?_
  refine alone_bind (alone_ensurePrMergedIfRequired read args.force hF) fun checked =>
    triple_of_fact fun hchecked => ?_
  refine alone_bind (alone_deleteChangeBranch _ _ _ _ hF) fun deleted =>
    triple_exists fun branches => triple_of_fact fun hbranches => ?_
  refine alone_bind alone_nowTimestamp fun _ => ?_
  have hclosed := hchecked.withState (if isPrMerged checked then .merged else .closed)
  have hactive (hlocal : deleted.1 = false) (reg : Registry)
      (hreg : HalfClosed read w.registry reg) : F { w with branches, registry := reg } := by
    obtain rfl := hbranches hlocal
    exact hhalf read reg hrecord hreg
  have hclose := alone_closeUpdate (i := i) (w := { w with branches }) args.force deleted.1
    hread hclosed hactive
  refine hclose.imp ?_ fun _ h => h
  rintro _ _ ⟨reg, log, happlies, rfl⟩
  exact ⟨_, branches, reg, log, happlies, rfl⟩

end Alone

/-! ### Reachable states -/

def Registry.empty : Registry := ⟨⟨∅, ∅⟩, ⟨∅, by simp, by simp⟩, []⟩

/-- The states that the commands lead to, one after the other, from a store without changes.
Between them, anything may happen to the branches and to the directories of the workspaces. -/
inductive Reachable (hash : String → String) : ChangesWorld ι → Prop
  | start (branches : FiniteMap String String) (workspaces : Finset String) :
      Reachable hash ⟨.empty, branches, workspaces, none, []⟩
  | command {w w' : ChangesWorld ι} {i : ι} {command : ChangesCommand}
      {r : Except ChangesError Unit} (h : Reachable hash w)
      (hrun : Prog.Runs completeExec (command.run i hash).run w (.done r) w') : Reachable hash w'
  | elsewhere {w : ChangesWorld ι} (h : Reachable hash w) (branches : FiniteMap String String)
      (workspaces : Finset String) : Reachable hash { w with branches, workspaces }

theorem IndexSound.halfClosed {read : ChangeRecord} {reg reg' : Registry} (h : IndexSound reg)
    (hread : reg.active.lookup read.changeId = some read) (hhalf : HalfClosed read reg reg') :
    IndexSound reg' := by
  refine h.of_within hhalf.index fun id old _ hold => ?_
  by_cases hid : id = read.changeId
  · subst hid
    obtain ⟨record, hrecord, state, pr, rfl, -⟩ := hhalf.record
    obtain rfl := Option.some.inj (hold.symm.trans hread)
    exact ⟨_, hrecord, rfl, List.Subset.refl _⟩
  · exact ⟨old, (hhalf.others id hid).trans hold, rfl, List.Subset.refl _⟩

section Reachable

variable {i : ι} {w : ChangesWorld ι}

/-- Whether a command fails or not, it leaves the index sound. -/
theorem alone_command (hash : String → String) (command : ChangesCommand)
    (hsound : IndexSound w.registry) :
    Alone (· = w) (command.run i hash) (fun _ w' => IndexSound w'.registry)
      fun w' => IndexSound w'.registry := by
  have hbound {reg reg' : Registry} {id name : String} (h : IndexSound reg)
      (happlies : (Effect.bound id name).Applies reg reg') : IndexSound reg' :=
    h.applies happlies nofun
  cases command with
  | create args =>
    refine (alone_createChange hash args hsound fun _ _ => hsound).imp ?_ fun _ h => h
    rintro _ _ ⟨record, reg, workspaces, branches, reg', log, hprimary, hcreated, hlinked, rfl⟩
    refine hbound (hsound.applies hcreated ?_) hlinked
    rintro _ _ ⟨⟩
    exact hprimary
  | wsCreate name id template =>
    refine (alone_createWithOutput name id template (fun _ => hsound)
      fun _ _ _ _ happlies => hbound hsound happlies).imp ?_ fun _ h => h
    rintro _ _ ⟨workspaces, reg, log, happlies, rfl⟩
    exact hbound hsound happlies
  | pr args =>
    refine (alone_prChange args hsound).imp ?_ fun _ h => h
    rintro _ _ ⟨pr, reg, log, happlies, rfl⟩
    exact hsound.applies happlies nofun
  | close args =>
    refine (alone_closeChange args hsound fun read reg hread hhalf => ?_).imp ?_ fun _ h => h
    · exact hsound.halfClosed (by rwa [ActiveRecords.changeId_eq hread]) hhalf
    · rintro _ _ ⟨record, branches, reg, log, happlies, rfl⟩
      exact hsound.applies happlies nofun

theorem reachable_indexSound {hash : String → String} (h : Reachable hash w) :
    IndexSound w.registry := by
  induction h with
  | start branches workspaces => exact ⟨fun _ _ hname => by simp [Registry.empty] at hname,
      fun _ _ hname => by simp [Registry.empty] at hname⟩
  | @command w w' i command r _ hrun ih =>
    have hend := (alone_command (i := i) hash command ih).runs rfl hrun
    cases r with
    | error e => exact hend
    | ok u => exact hend
  | elsewhere _ branches workspaces ih => exact ih

end Reachable

end Maw.Changes
