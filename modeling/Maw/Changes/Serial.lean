import Maw.Changes.Commands
import Maw.Changes.Effects

/-!
# Commands on changes at the same time

Any number of commands run at the same time, one of them at a time within the lock. A command that
finds, when it takes the lock, what it has read before does to the store what it would do alone,
so that the store is as if the commands that succeeded had run one after the other. What was
written between the reading of a record and the lock is lost.

## Main definitions

* `StoreUpdate.Fresh` — what was read for an update still holds.
* `Undisturbed` — updates are fresh and do not fail halfway.
* `Moves`, `Own` — the steps of a process.
* `Outside`, `Inside` — what a process knows without and with the lock.

## Main results

* `triple_withStoreLock` — an update is one more effect of its process.
-/

open Interleaved

namespace Maw.Changes

variable {ι : Type} [DecidableEq ι]

/-! ### Undisturbed updates -/

/-- What the update was read from is as it was: no record of a new change, the same record of
another one, and no linked workspace if one would stop a close. A creation that is rolled back has
replaced no mappings, and nothing else was done to its change. -/
def StoreUpdate.Fresh (i : ι) (reg : Registry) (log : List (Entry ι)) (workspaces : Finset String) :
    StoreUpdate → Prop
  | create record => reg.active.lookup record.changeId = none
  | rollback changeId => ∃ before record found after,
      log = before ++ ⟨i, .created record found⟩ :: after ∧ record.changeId = changeId ∧
        (∀ e ∈ after, e.effect.changeId ≠ changeId) ∧ found.Omits changeId ∧
        found.byBranch.lookup record.git.changeBranch = none ∧
        found.byWorkspace.lookup record.workspaces.primary = none
  | bind read workspaceName changeId => reg.active.lookup changeId = some read ∧
      ((∃ e ∈ log, e.who = i) → read.link workspaceName = read ∧
        reg.index.setWorkspaceMapping workspaceName changeId = reg.index)
  | pr read _ => reg.active.lookup read.changeId = some read
  | close read record force _ => reg.active.lookup read.changeId = some read ∧
      (force = false → ∀ name ∈ record.workspaces.linked, name ∉ workspaces)

/-- The calls of an update that follow its first write, and all calls of a rollback. -/
def AfterFirstWrite : StoreUpdate → ChangesAction → Bool
  | .create _, .writeActiveRecord _ => true
  | .bind .., .writeActiveRecord _ => true
  | .close .., .readIndex | .close .., .writeIndex _ | .close .., .archiveActiveRecord _ => true
  | .rollback _, .readIndex | .rollback _, .writeIndex _ | .rollback _, .deleteActiveRecord _ =>
    true
  | _, _ => false

/-- The calls outside of the lock of which a failure leaves a change that its command has made. -/
def AfterUpdate : ChangesAction → Bool
  | .lock (.rollback _) => true
  | .outside (.writeTemplateArtifact _) => true
  | _ => false

/-- An update starts fresh and does not fail halfway, and no workspace is created that a close
counts on to be gone. -/
structure Undisturbed (op : ι × ChangesAction) (w : ChangesWorld ι)
    (r : Except ChangesError op.2.Ret) : Prop where
  fresh : ∀ update, op.2 = .lock update → (∀ e, r ≠ .error e) →
    update.Fresh op.1 w.registry w.log w.workspaces
  complete : ∀ held, w.holder = some held → held.who = op.1 → AfterFirstWrite held.update op.2 →
    ∀ e, r ≠ .error e
  stays : AfterUpdate op.2 → ∀ e, r ≠ .error e
  absent : ∀ name epoch, op.2 = .addWorktree name epoch → ∀ held read record deleted,
    w.holder = some held → held.update = .close read record false deleted →
      name ∉ record.workspaces.linked

/-- The calls in undisturbed runs. -/
def undisturbedExec (op : ι × ChangesAction) (w : ChangesWorld ι)
    (r : Except ChangesError op.2.Ret) (w' : ChangesWorld ι) : Prop :=
  ChangesAction.exec op w r w' ∧ Undisturbed op w r

/-! ### The steps of a process -/

/-- The effects of a process. -/
def ownLog (i : ι) (log : List (Entry ι)) : List (Entry ι) := log.filter fun e => e.who = i

theorem ownLog_append (i : ι) (log log' : List (Entry ι)) :
    ownLog i (log ++ log') = ownLog i log ++ ownLog i log' :=
  List.filter_append ..

theorem ownLog_singleton (i : ι) (e : Effect) : ownLog i [⟨i, e⟩] = [⟨i, e⟩] := by
  simp [ownLog]

theorem ownLog_singleton_of_ne {i j : ι} (h : j ≠ i) (e : Effect) :
    ownLog j [(⟨i, e⟩ : Entry ι)] = [] := by
  simp [ownLog, h.symm]

theorem exists_own_iff (i : ι) (log : List (Entry ι)) :
    (∃ e ∈ log, e.who = i) ↔ ∃ e ∈ ownLog i log, e.who = i := by
  simp [ownLog]

/-- An update notes its effect among those of its process. -/
theorem ownLog_note (held : Held ι) (log : List (Entry ι)) :
    ownLog held.who (held.note log) = held.note (ownLog held.who log) := by
  obtain ⟨i, update, found⟩ := held
  cases update with
  | rollback changeId =>
    show ownLog i (log.filter _) = (ownLog i log).filter _
    rw [ownLog, ownLog, List.filter_filter, List.filter_filter]
    exact List.filter_congr fun e _ => Bool.and_comm ..
  | bind read workspaceName changeId =>
    simp only [Held.note, exists_own_iff i log]
    split_ifs
    · rfl
    · rw [ownLog_append, ownLog_singleton]
  | create record | pr read pr | close read record force deleted =>
    exact (ownLog_append ..).trans (congrArg (ownLog i log ++ ·) (ownLog_singleton i _))

theorem ownLog_note_of_ne {held : Held ι} {j : ι} (h : j ≠ held.who) (log : List (Entry ι)) :
    ownLog j (held.note log) = ownLog j log := by
  obtain ⟨i, update, found⟩ := held
  have hsnoc (e : Effect) : ownLog j (log ++ [⟨i, e⟩]) = ownLog j log := by
    rw [ownLog_append, ownLog_singleton_of_ne h, List.append_nil]
  cases update with
  | rollback changeId =>
    show ownLog j (log.filter _) = _
    rw [ownLog, ownLog, List.filter_filter]
    refine List.filter_congr fun e _ => ?_
    by_cases he : e.who = j
    · have hne : e.who ≠ i := fun heq => h (he.symm.trans heq)
      simp [he, h]
    · simp [he]
  | bind read workspaceName changeId =>
    simp only [Held.note]
    split_ifs
    · rfl
    · exact hsnoc _
  | create record | pr read pr | close read record force deleted => exact hsnoc _

/-- Only a close notes that a change was closed. -/
theorem update_of_note {held : Held ι} {log : List (Entry ι)} {who : ι} {record : ChangeRecord}
    {force : Bool} (h : held.note log = log ++ [⟨who, .closed record force⟩]) :
    ∃ read deleted, held.update = .close read record force deleted := by
  obtain ⟨i, update, found⟩ := held
  cases update with
  | rollback changeId =>
    have hlength := congrArg List.length h
    have hle : (log.filter fun e => e.who ≠ i).length ≤ log.length := List.length_filter_le ..
    rw [List.length_append, List.length_singleton] at hlength
    exact absurd hlength (by simp only [Held.note]; omega)
  | bind read workspaceName changeId =>
    simp only [Held.note] at h
    split_ifs at h
    · exact absurd h (by simp)
    · simp at h
  | create record | pr read pr => simp [Held.note] at h
  | close read record' force' deleted =>
    simp only [Held.note, List.append_cancel_left_eq, List.cons.injEq, Entry.mk.injEq,
      Effect.closed.injEq, and_true] at h
    obtain ⟨-, rfl, rfl⟩ := h
    exact ⟨read, deleted, rfl⟩

/-- All that a step of a process does: without the lock, it leaves the store as it is. -/
structure Moves (i : ι) (w w' : ChangesWorld ι) : Prop where
  others : ∀ j, j ≠ i → ownLog j w'.log = ownLog j w.log
  outside : (∀ held, w.holder = some held → held.who ≠ i) →
    w'.registry = w.registry ∧ w'.log = w.log ∧
      (w'.holder = w.holder ∨ w.holder = none ∧ ∀ held, w'.holder = some held → held.who = i)
  inside : ∀ held, w.holder = some held → held.who = i → w'.holder = some held ∨ w'.holder = none
  absent : ∀ held read record deleted, w.holder = some held →
    held.update = .close read record false deleted → ∀ name ∈ record.workspaces.linked, name ∉ w.workspaces → name ∉ w'.workspaces
  archives : ∀ who record, w'.log = w.log ++ [⟨who, .closed record false⟩] →
    ∀ name ∈ record.workspaces.linked, name ∉ w.workspaces

variable (reg₀ : Registry)

/-- The store, when nobody holds its lock. -/
def Settled (w : ChangesWorld ι) : Prop := w.holder = none → Replays reg₀ w.log w.registry

/-- The steps of one process. -/
def Own (i : ι) (w w' : ChangesWorld ι) : Prop := Settled reg₀ w ∧ Moves i w w' ∧ Settled reg₀ w'

/-- The steps of the other processes. -/
def Rely (i : ι) (w w' : ChangesWorld ι) : Prop := ∃ j, j ≠ i ∧ Own reg₀ j w w'

/-- The process does not hold the lock, and these are its effects. -/
def Outside (i : ι) (effects : List (Entry ι)) (w : ChangesWorld ι) : Prop :=
  Settled reg₀ w ∧ (∀ held, w.holder = some held → held.who ≠ i) ∧ ownLog i w.log = effects

/-- The process holds the lock for an update, and this is the store. -/
def Inside (i : ι) (update : StoreUpdate) (found : ChangeIndex) (reg : Registry)
    (log : List (Entry ι)) (w : ChangesWorld ι) : Prop :=
  w.holder = some ⟨i, update, found⟩ ∧ w.registry = reg ∧ w.log = log ∧
    ∀ read record deleted, update = .close read record false deleted →
      ∀ name ∈ record.workspaces.linked, name ∉ w.workspaces

section Stability

variable {reg₀} {i : ι} {w w' : ChangesWorld ι}

omit [DecidableEq ι] in
theorem settled_of_holder {held : Held ι} (h : w.holder = some held) : Settled reg₀ w := by
  intro hnone
  rw [hnone] at h
  cases h

theorem stable_outside (reg₀ : Registry) (i : ι) (effects : List (Entry ι)) :
    Stable (Rely reg₀ i) (Outside reg₀ i effects) := by
  rintro w w' ⟨j, hj, -, hmoves, hsettled⟩ ⟨-, hholder, hlog⟩
  refine ⟨hsettled, fun held hheld => ?_, (hmoves.others i hj.symm).trans hlog⟩
  by_cases hj' : ∀ held, w.holder = some held → held.who ≠ j
  · obtain ⟨-, -, heq | ⟨-, hnew⟩⟩ := hmoves.outside hj'
    · exact hholder held (heq ▸ hheld)
    · exact fun heq => hj (hnew held hheld ▸ heq)
  · push Not at hj'
    obtain ⟨held', hheld', hwho⟩ := hj'
    rcases hmoves.inside held' hheld' hwho with heq | heq
    · obtain rfl := Option.some.inj (heq.symm.trans hheld)
      exact fun heq => hj (hwho.symm.trans heq)
    · rw [heq] at hheld
      cases hheld

theorem stable_inside (update : StoreUpdate) (found : ChangeIndex) (reg : Registry)
    (log : List (Entry ι)) : Stable (Rely reg₀ i) (Inside i update found reg log) := by
  rintro w w' ⟨j, hj, -, hmoves, -⟩ ⟨hholder, hreg, hlog, habsent⟩
  have hj' : ∀ held, w.holder = some held → held.who ≠ j := by
    intro held hheld
    obtain rfl := Option.some.inj (hholder.symm.trans hheld)
    exact hj.symm
  obtain ⟨hreg', hlog', heq | ⟨hnone, -⟩⟩ := hmoves.outside hj'
  · refine ⟨heq.trans hholder, hreg'.trans hreg, hlog'.trans hlog, ?_⟩
    intro read record deleted hupdate name hname
    exact hmoves.absent _ read record deleted hholder hupdate name hname
      (habsent read record deleted hupdate name hname)
  · rw [hnone] at hholder
    cases hholder

/-- A step that does not touch the store or the workspaces. -/
theorem moves_of_same (hreg : w'.registry = w.registry) (hlog : w'.log = w.log)
    (hholder : w'.holder = w.holder) (hworkspaces : w'.workspaces = w.workspaces) :
    Moves i w w' where
  others j _ := by rw [hlog]
  outside _ := ⟨hreg, hlog, .inl hholder⟩
  inside held hheld _ := .inl (hholder.trans hheld)
  absent _ _ _ _ _ _ name _ hname := by rwa [hworkspaces]
  archives who record h := by simp [hlog] at h

/-- A step under the lock. -/
theorem moves_of_held {held : Held ι} (hheld : w.holder = some held)
    (hholder : w'.holder = some held ∨ w'.holder = none)
    (hlog : w'.log = w.log ∨ w'.log = held.note w.log) (hworkspaces : w'.workspaces = w.workspaces)
    (hclose : ∀ read record deleted, held.update = .close read record false deleted →
      ∀ name ∈ record.workspaces.linked, name ∉ w.workspaces) : Moves held.who w w' where
  others j hj := by
    rcases hlog with hlog | hlog
    · rw [hlog]
    · rw [hlog, ownLog_note_of_ne hj]
  outside h := absurd rfl (h held hheld)
  inside held' hheld' _ := by
    obtain rfl := Option.some.inj (hheld.symm.trans hheld')
    exact hholder
  absent _ _ _ _ _ _ name _ hname := by rwa [hworkspaces]
  archives who record h := by
    rcases hlog with hlog | hlog
    · simp [hlog] at h
    · obtain ⟨read, deleted, hupdate⟩ := update_of_note (hlog.symm.trans h)
      exact hclose read record deleted hupdate

/-- Every call is a step of its process. -/
theorem moves_of_exec {op : ι × ChangesAction} {r : Except ChangesError op.2.Ret}
    (h : undisturbedExec op w r w')
    (hclose : ∀ held read record deleted, w.holder = some held → held.who = op.1 →
      held.update = .close read record false deleted → ∀ name ∈ record.workspaces.linked,
        name ∉ w.workspaces) : Moves op.1 w w' := by
  obtain ⟨hexec, hundisturbed⟩ := h
  have hfails {α : Type} {r : Except ChangesError α} (h : ChangesAction.Fails w r w') :
      Moves op.1 w w' := by
    obtain ⟨-, rfl⟩ := h
    exact moves_of_same rfl rfl rfl rfl
  obtain ⟨i, a⟩ := op
  cases a with
  | outside call =>
    obtain ⟨rfl, -⟩ := hexec
    exact moves_of_same rfl rfl rfl rfl
  | readActiveRecord id =>
    rcases hexec with ⟨-, -, rfl⟩ | hfail
    · exact moves_of_same rfl rfl rfl rfl
    · exact hfails hfail
  | lock update =>
    rcases hexec with ⟨hnone, -, rfl⟩ | hfail
    · refine ⟨fun _ _ => rfl, fun _ => ⟨rfl, rfl, .inr ⟨hnone, ?_⟩⟩, fun held hheld => ?_,
        fun _ _ _ _ _ _ _ _ hname => hname, fun who record h => by simp at h⟩
      · rintro held ⟨⟩
        rfl
      · rw [hnone] at hheld
        cases hheld
    · exact hfails hfail
  | readIndex =>
    rcases hexec with ⟨-, rfl⟩ | hfail
    · exact moves_of_same rfl rfl rfl rfl
    · exact hfails hfail
  | writeIndex index =>
    obtain ⟨held, hheld, rfl, ⟨-, rfl⟩ | hfail⟩ := hexec
    · exact moves_of_held hheld (.inl hheld) (.inl rfl) rfl fun read record deleted hupdate =>
        hclose held read record deleted hheld rfl hupdate
    · exact hfails hfail
  | writeActiveRecord record =>
    obtain ⟨held, hheld, rfl, ⟨hid, -, rfl⟩ | hfail⟩ := hexec
    · refine moves_of_held hheld (.inl hheld) ?_ rfl fun read record deleted hupdate =>
        hclose held read record deleted hheld rfl hupdate
      show (if _ then _ else _) = _ ∨ (if _ then _ else _) = _
      split_ifs
      · exact .inl rfl
      · exact .inr rfl
    · exact hfails hfail
  | deleteActiveRecord id =>
    obtain ⟨held, hheld, rfl, ⟨-, rfl⟩ | hfail⟩ := hexec
    · exact moves_of_held hheld (.inl hheld) (.inr rfl) rfl fun read record deleted hupdate =>
        hclose held read record deleted hheld rfl hupdate
    · exact hfails hfail
  | archiveActiveRecord id =>
    obtain ⟨held, hheld, rfl, ⟨-, -, rfl⟩ | ⟨-, -, rfl⟩ | hfail⟩ := hexec
    · exact moves_of_held hheld (.inl hheld) (.inr rfl) rfl fun read record deleted hupdate =>
        hclose held read record deleted hheld rfl hupdate
    · exact moves_of_same rfl rfl rfl rfl
    · exact hfails hfail
  | unlock =>
    obtain ⟨held, hheld, rfl, -, rfl⟩ := hexec
    exact moves_of_held hheld (.inr rfl) (.inl rfl) rfl fun read record deleted hupdate =>
      hclose held read record deleted hheld rfl hupdate
  | readRef branch =>
    rcases hexec with ⟨-, rfl⟩ | hfail
    · exact moves_of_same rfl rfl rfl rfl
    · exact hfails hfail
  | createBranch branch oid =>
    rcases hexec with ⟨-, -, rfl⟩ | hfail
    · exact moves_of_same rfl rfl rfl rfl
    · exact hfails hfail
  | deleteRef branch rollback =>
    rcases hexec with ⟨-, rfl⟩ | hfail
    · exact moves_of_same rfl rfl rfl rfl
    · exact hfails hfail
  | workspaceExists name =>
    obtain ⟨-, rfl⟩ := hexec
    exact moves_of_same rfl rfl rfl rfl
  | addWorktree name epoch =>
    have hcreated : Moves i w { w with workspaces := insert name w.workspaces } := by
      refine ⟨fun _ _ => rfl, fun _ => ⟨rfl, rfl, .inl rfl⟩, fun held hheld _ => .inl hheld, ?_,
        fun who record h => by simp at h⟩
      intro held read record deleted hheld hupdate name' hname' habsent
      have hne : name' ≠ name := by
        rintro rfl
        exact hundisturbed.absent name' epoch rfl held read record deleted hheld hupdate hname'
      simp [hne, habsent]
    rcases hexec with ⟨-, rfl⟩ | ⟨-, rfl | rfl⟩
    · exact hcreated
    · exact moves_of_same rfl rfl rfl rfl
    · exact hcreated

end Stability

/-! ### Calls -/

section Triples

variable {reg₀} {i : ι}

/-- Triples of the programs of a process. -/
abbrev SerialTriple (reg₀ : Registry) (i : ι) {α : Type} (P : ChangesWorld ι → Prop)
    (p : ChangesProg ι α) (R : α → ChangesWorld ι → Prop) (F : ChangesWorld ι → Prop) : Prop :=
  Triple undisturbedExec (Rely reg₀ i) (Own reg₀ i) P p R F

/-- The calls that need no lock. -/
def NeedsNoLock : ChangesAction → Prop
  | .lock _ | .writeIndex _ | .writeActiveRecord _ | .deleteActiveRecord _
  | .archiveActiveRecord _ | .unlock => False
  | a => AfterUpdate a = false

/-- Without the lock, only the lock changes what a process knows. -/
theorem outside_of_exec {a : ChangesAction} (ha : NeedsNoLock a) {effects : List (Entry ι)}
    {w w' : ChangesWorld ι} {r : Except ChangesError a.Ret} (hw : Outside reg₀ i effects w)
    (h : undisturbedExec (i, a) w r w') : Own reg₀ i w w' ∧ Outside reg₀ i effects w' := by
  obtain ⟨hsettled, hholder, hlog⟩ := hw
  have hmoves : Moves i w w' := moves_of_exec h fun held _ _ _ hheld hwho =>
    absurd hwho (hholder held hheld)
  obtain ⟨hreg', hlog', -⟩ := hmoves.outside hholder
  have hsame : w'.holder = w.holder := by
    obtain ⟨hexec, -⟩ := h
    cases a with
    | lock | writeIndex | writeActiveRecord | deleteActiveRecord | archiveActiveRecord | unlock =>
      exact ha.elim
    | outside call => exact congrArg ChangesWorld.holder hexec.1
    | readActiveRecord id =>
      rcases hexec with ⟨-, -, rfl⟩ | ⟨-, rfl⟩ <;> rfl
    | readIndex | readRef branch =>
      rcases hexec with ⟨-, rfl⟩ | ⟨-, rfl⟩ <;> rfl
    | createBranch branch oid =>
      rcases hexec with ⟨-, -, rfl⟩ | ⟨-, rfl⟩ <;> rfl
    | deleteRef branch rollback =>
      rcases hexec with ⟨-, rfl⟩ | ⟨-, rfl⟩ <;> rfl
    | workspaceExists name => exact congrArg ChangesWorld.holder hexec.2
    | addWorktree name epoch =>
      rcases hexec with ⟨-, rfl⟩ | ⟨-, rfl | rfl⟩ <;> rfl
  have hsettled' : Settled reg₀ w' := by
    intro hnone
    rw [hlog', hreg']
    exact hsettled (hsame ▸ hnone)
  refine ⟨⟨hsettled, hmoves, hsettled'⟩, hsettled', ?_, by rw [hlog', hlog]⟩
  intro held hheld
  exact hholder held (hsame ▸ hheld)

/-- The frame rule: a program that needs no lock. -/
theorem triple_outside {α : Type} {p : ChangesProg ι α} (effects : List (Entry ι))
    (hp : p.run.Only fun op => op.1 = i ∧ NeedsNoLock op.2) :
    SerialTriple reg₀ i (Outside reg₀ i effects) p (fun _ => Outside reg₀ i effects)
      (Outside reg₀ i effects) := by
  refine triple_of_only (stable_outside reg₀ i effects) ?_ (fun _ h => h) hp
  rintro ⟨j, a⟩ w r w' ⟨rfl, ha⟩ hw hexec
  exact outside_of_exec ha hw hexec

/-- A record that is read is the one of the change. -/
theorem triple_readActiveRecord (id : String) (effects : List (Entry ι)) :
    SerialTriple reg₀ i (Outside reg₀ i effects) (invoke i (.readActiveRecord id))
      (fun o w => (∀ record, o = some record → record.changeId = id) ∧ Outside reg₀ i effects w)
      (Outside reg₀ i effects) := by
  have hstable := stable_outside reg₀ i effects
  refine triple_attempt hstable (fun o w w' hrely h => ⟨h.1, hstable w w' hrely h.2⟩) hstable ?_
  intro w r w' hw hexec
  obtain ⟨hown, hw'⟩ := outside_of_exec (a := .readActiveRecord id) rfl hw hexec
  refine ⟨hown, ?_⟩
  rcases hexec.1 with ⟨-, rfl, -⟩ | ⟨rfl, -⟩
  · refine ⟨fun record hrecord => ?_, hw'⟩
    exact ActiveRecords.changeId_eq hrecord
  · exact hw'

/-- The lock is taken for an update that is fresh. -/
theorem triple_lock (update : StoreUpdate) (effects : List (Entry ι)) {F : ChangesWorld ι → Prop}
    (hF : Stable (Rely reg₀ i) F)
    (hfail : (∀ w, Outside reg₀ i effects w → F w) ∨ AfterUpdate (.lock update)) :
    SerialTriple reg₀ i (Outside reg₀ i effects) (invoke i (.lock update))
      (fun _ w => ∃ x : Registry × List (Entry ι),
        (Replays reg₀ x.2 x.1 ∧ ownLog i x.2 = effects ∧ ∃ workspaces,
          update.Fresh i x.1 x.2 workspaces) ∧ Inside i update x.1.index x.1 x.2 w) F := by
  have hstable := stable_outside reg₀ i effects
  refine triple_attempt hstable ?_ hF ?_
  · rintro _ w w' hrely ⟨x, hx, hinside⟩
    exact ⟨x, hx, stable_inside _ _ _ _ w w' hrely hinside⟩
  rintro w r w' hw hexec
  have hmoves : Moves i w w' := moves_of_exec hexec fun held _ _ _ hheld hwho =>
    absurd hwho (hw.2.1 held hheld)
  obtain ⟨⟨hnone, rfl, rfl⟩ | ⟨rfl, rfl⟩, hundisturbed⟩ := hexec
  · have hfresh := hundisturbed.fresh update rfl nofun
    refine ⟨⟨hw.1, hmoves, settled_of_holder rfl⟩, (w.registry, w.log),
      ⟨hw.1 hnone, hw.2.2, w.workspaces, hfresh⟩, rfl, rfl, rfl, ?_⟩
    rintro read record deleted rfl
    exact hfresh.2 rfl
  · refine ⟨⟨hw.1, hmoves, hw.1⟩, ?_⟩
    rcases hfail with hfail | hafter
    · exact hfail w' hw
    · exact absurd rfl (hundisturbed.stays hafter .call)

/-! ### Calls under the lock -/

section Held

variable {update : StoreUpdate} {found : ChangeIndex} {reg : Registry} {log : List (Entry ι)}
  {F : ChangesWorld ι → Prop}

/-- A call of the update fails without a change, or it does not fail. -/
theorem triple_inside {a : ChangesAction} {R : a.Ret → ChangesWorld ι → Prop}
    (hR : ∀ v, Stable (Rely reg₀ i) (R v)) (hF : Stable (Rely reg₀ i) F)
    (hfail : (∀ w, Inside i update found reg log w → F w) ∨ AfterFirstWrite update a)
    (h : ∀ w r w', Inside i update found reg log w → ChangesAction.exec (i, a) w r w' →
      w'.holder = w.holder ∧ ((∃ e, r = .error e ∧ w' = w) ∨ ∃ v, r = .ok v ∧ R v w')) :
    SerialTriple reg₀ i (Inside i update found reg log) (invoke i a) R F := by
  refine triple_attempt (stable_inside update found reg log) hR hF ?_
  intro w r w' hw hexec
  obtain ⟨hholder, hreg, hlog, habsent⟩ := id hw
  have hmoves : Moves i w w' := moves_of_exec hexec fun held read record deleted hheld _ hupdate => by
    obtain rfl := Option.some.inj (hholder.symm.trans hheld)
    exact habsent read record deleted hupdate
  obtain ⟨hexec, hundisturbed⟩ := hexec
  obtain ⟨hsame, hresult⟩ := h w r w' hw hexec
  refine ⟨⟨settled_of_holder hholder, hmoves, settled_of_holder (hsame.trans hholder)⟩, ?_⟩
  rcases hresult with ⟨e, rfl, rfl⟩ | ⟨v, rfl, hv⟩
  · rcases hfail with hfail | hafter
    · exact hfail w' hw
    · exact absurd rfl (hundisturbed.complete _ hholder rfl hafter e)
  · exact hv

theorem triple_readIndex (hF : Stable (Rely reg₀ i) F)
    (hfail : (∀ w, Inside i update found reg log w → F w) ∨ AfterFirstWrite update .readIndex) :
    SerialTriple reg₀ i (Inside i update found reg log) (invoke i .readIndex)
      (fun index w => index = reg.index ∧ Inside i update found reg log w) F := by
  refine triple_inside ?_ hF hfail ?_
  · exact fun _ w w' hrely h => ⟨h.1, stable_inside _ _ _ _ w w' hrely h.2⟩
  · rintro w r w' hw (⟨rfl, rfl⟩ | ⟨rfl, rfl⟩)
    · exact ⟨rfl, .inr ⟨_, rfl, congrArg Registry.index hw.2.1, hw⟩⟩
    · exact ⟨rfl, .inl ⟨_, rfl, rfl⟩⟩

theorem triple_writeIndex (index : ChangeIndex) (hF : Stable (Rely reg₀ i) F)
    (hfail : (∀ w, Inside i update found reg log w → F w) ∨
      AfterFirstWrite update (.writeIndex index)) :
    SerialTriple reg₀ i (Inside i update found reg log) (invoke i (.writeIndex index))
      (fun _ => Inside i update found { reg with index } log) F := by
  refine triple_inside (fun _ => stable_inside _ _ _ _) hF hfail ?_
  rintro w r w' ⟨hholder, rfl, rfl, habsent⟩ ⟨held, -, -, ⟨rfl, rfl⟩ | ⟨rfl, rfl⟩⟩
  · exact ⟨rfl, .inr ⟨_, rfl, hholder, rfl, rfl, habsent⟩⟩
  · exact ⟨rfl, .inl ⟨_, rfl, rfl⟩⟩

theorem triple_writeActiveRecord (record : ChangeRecord) (hF : Stable (Rely reg₀ i) F)
    (hfail : (∀ w, Inside i update found reg log w → F w) ∨
      AfterFirstWrite update (.writeActiveRecord record)) :
    SerialTriple reg₀ i (Inside i update found reg log) (invoke i (.writeActiveRecord record))
      (fun _ w => ∃ hid, Inside i update found { reg with active := reg.active.put record hid }
        (if update.isClose then log else Held.note ⟨i, update, found⟩ log) w) F := by
  refine triple_inside ?_ hF hfail ?_
  · rintro _ w w' hrely ⟨hid, h⟩
    exact ⟨hid, stable_inside _ _ _ _ w w' hrely h⟩
  · rintro w r w' ⟨hholder, rfl, rfl, habsent⟩ ⟨held, hheld, -, ⟨hid, rfl, rfl⟩ | ⟨rfl, rfl⟩⟩
    · obtain rfl := Option.some.inj (hholder.symm.trans hheld)
      exact ⟨rfl, .inr ⟨_, rfl, hid, hholder, rfl, rfl, habsent⟩⟩
    · exact ⟨rfl, .inl ⟨_, rfl, rfl⟩⟩

theorem triple_deleteActiveRecord (id : String) (hF : Stable (Rely reg₀ i) F)
    (hfail : (∀ w, Inside i update found reg log w → F w) ∨
      AfterFirstWrite update (.deleteActiveRecord id)) :
    SerialTriple reg₀ i (Inside i update found reg log) (invoke i (.deleteActiveRecord id))
      (fun _ => Inside i update found { reg with active := reg.active.remove id }
        (Held.note ⟨i, update, found⟩ log)) F := by
  refine triple_inside (fun _ => stable_inside _ _ _ _) hF hfail ?_
  rintro w r w' ⟨hholder, rfl, rfl, habsent⟩ ⟨held, hheld, -, ⟨rfl, rfl⟩ | ⟨rfl, rfl⟩⟩
  · obtain rfl := Option.some.inj (hholder.symm.trans hheld)
    exact ⟨rfl, .inr ⟨_, rfl, hholder, rfl, rfl, habsent⟩⟩
  · exact ⟨rfl, .inl ⟨_, rfl, rfl⟩⟩

theorem triple_archiveActiveRecord (id : String) (hid : (reg.active.lookup id).isSome)
    (hF : Stable (Rely reg₀ i) F)
    (hfail : (∀ w, Inside i update found reg log w → F w) ∨
      AfterFirstWrite update (.archiveActiveRecord id)) :
    SerialTriple reg₀ i (Inside i update found reg log) (invoke i (.archiveActiveRecord id))
      (fun archived w => archived = true ∧ Inside i update found (reg.archiveActiveRecord id)
        (Held.note ⟨i, update, found⟩ log) w) F := by
  refine triple_inside ?_ hF hfail ?_
  · exact fun _ w w' hrely h => ⟨h.1, stable_inside _ _ _ _ w w' hrely h.2⟩
  · rintro w r w' ⟨hholder, rfl, rfl, habsent⟩
      ⟨held, hheld, -, ⟨-, rfl, rfl⟩ | ⟨hnone, -, -⟩ | ⟨rfl, rfl⟩⟩
    · obtain rfl := Option.some.inj (hholder.symm.trans hheld)
      exact ⟨rfl, .inr ⟨_, rfl, rfl, hholder, rfl, rfl, habsent⟩⟩
    · rw [hnone] at hid
      cases hid
    · exact ⟨rfl, .inl ⟨_, rfl, rfl⟩⟩

/-- The lock is given back when the store is as after the effects that are noted. -/
theorem triple_unlock (hreplays : Replays reg₀ log reg) (hF : Stable (Rely reg₀ i) F) :
    SerialTriple reg₀ i (Inside i update found reg log) (invoke i .unlock)
      (fun _ => Outside reg₀ i (ownLog i log)) F := by
  refine triple_attempt (stable_inside update found reg log) (fun _ => stable_outside reg₀ i _) hF ?_
  intro w r w' hw hexec
  obtain ⟨hholder, rfl, rfl, habsent⟩ := hw
  have hmoves : Moves i w w' := moves_of_exec hexec fun held read record deleted hheld _ hupdate => by
    obtain rfl := Option.some.inj (hholder.symm.trans hheld)
    exact habsent read record deleted hupdate
  obtain ⟨⟨held, hheld, -, hr, hw'⟩, -⟩ := hexec
  subst hr hw'
  have hsettled : Settled reg₀ { w with holder := none } := fun _ => hreplays
  refine ⟨⟨settled_of_holder hholder, hmoves, hsettled⟩, hsettled, ?_, rfl⟩
  intro held' hheld'
  cases hheld'

end Held

/-! ### Updates -/

/-- What a command knows of its update: a close keeps what it has read but for the state. -/
def StoreUpdate.WellFormed : StoreUpdate → Prop
  | .close read record .. => ClosedFrom read record
  | _ => True

section Updates

variable {reg : Registry} {log : List (Entry ι)} {workspaces : Finset String}

/-- An update has failed and changed nothing. -/
def FailedInside (i : ι) (update : StoreUpdate) (reg : Registry) (log : List (Entry ι))
    (w : ChangesWorld ι) : Prop :=
  (∀ id, update ≠ .rollback id) ∧ Inside i update reg.index reg log w

theorem stable_failedInside (reg₀ : Registry) (i : ι) (update : StoreUpdate) (reg : Registry)
    (log : List (Entry ι)) :
    Stable (Rely reg₀ i) (FailedInside i update reg log) :=
  fun w w' hrely h => ⟨h.1, stable_inside _ _ _ _ w w' hrely h.2⟩

/-- Triples of updates that start from a store that they are fresh in. -/
abbrev UpdateTriple (reg₀ : Registry) (i : ι) (reg : Registry) (log : List (Entry ι))
    (update : StoreUpdate) : Prop :=
  SerialTriple reg₀ i (Inside i update reg.index reg log) (update.run i)
    (fun _ w => ∃ reg', Replays reg₀ (Held.note ⟨i, update, reg.index⟩ log) reg' ∧
      Inside i update reg.index reg' (Held.note ⟨i, update, reg.index⟩ log) w)
    (FailedInside i update reg log)

theorem triple_create {record : ChangeRecord} (hreplays : Replays reg₀ log reg)
    (hfresh : (StoreUpdate.create record).Fresh i reg log workspaces) :
    UpdateTriple reg₀ i reg log (.create record) := by
  have hF := stable_failedInside reg₀ i (.create record) reg log
  have hfail (w : ChangesWorld ι) (h : Inside i (.create record) reg.index reg log w) :
      FailedInside i (.create record) reg log w := ⟨nofun, h⟩
  refine triple_bind hF (triple_readIndex hF (.inl hfail)) fun index => triple_of_fact ?_
  rintro rfl
  refine triple_bind hF (triple_writeIndex _ hF (.inl hfail)) fun _ => ?_
  refine (triple_writeActiveRecord record hF (.inr rfl)).imp ?_ fun _ h => h
  rintro _ w ⟨hid, hw⟩
  exact ⟨_, hreplays.snoc (.created record reg.index hid hfresh (.refl _)), hw⟩

theorem triple_rollback {changeId : String} (hreplays : Replays reg₀ log reg)
    (hsingle : ∃ e, ownLog i log = [e])
    (hfresh : (StoreUpdate.rollback changeId).Fresh i reg log workspaces) :
    UpdateTriple reg₀ i reg log (.rollback changeId) := by
  have hF := stable_failedInside reg₀ i (.rollback changeId) reg log
  refine triple_bind hF (triple_readIndex hF (.inr rfl)) fun index => triple_of_fact ?_
  rintro rfl
  refine triple_bind hF (triple_writeIndex _ hF (.inr rfl)) fun _ => ?_
  refine (triple_deleteActiveRecord changeId hF (.inr rfl)).imp ?_ fun _ h => h
  intro _ w hw
  refine ⟨_, ?_, hw⟩
  obtain ⟨before, record, found, after, rfl, rfl, hafter, homits, hbranch, hworkspace⟩ := hfresh
  have hundone := hreplays.without_creation hafter homits hbranch hworkspace
  -- No other effect is of this process.
  have hothers : ∀ e ∈ before ++ after, e.who ≠ i := by
    obtain ⟨e, he⟩ := hsingle
    rw [ownLog_append, ← List.singleton_append, ownLog_append, ownLog_singleton] at he
    have hlength := congrArg List.length he
    simp only [List.length_append, List.length_singleton] at hlength
    have hbefore : ownLog i before = [] := List.eq_nil_of_length_eq_zero (by omega)
    have hafter : ownLog i after = [] := List.eq_nil_of_length_eq_zero (by omega)
    intro e' he' hwho
    rcases List.mem_append.mp he' with hmem | hmem
    · exact List.ne_nil_of_mem (List.mem_filter.mpr ⟨hmem, decide_eq_true hwho⟩) hbefore
    · exact List.ne_nil_of_mem (List.mem_filter.mpr ⟨hmem, decide_eq_true hwho⟩) hafter
  have hnote : Held.note ⟨i, .rollback record.changeId, reg.index⟩
      (before ++ ⟨i, .created record found⟩ :: after) = before ++ after := by
    show (before ++ ⟨i, .created record found⟩ :: after).filter (fun e => e.who ≠ i) = _
    rw [List.filter_append, List.filter_cons_of_neg (by simp), ← List.filter_append]
    exact List.filter_eq_self.mpr fun e he => decide_eq_true (hothers e he)
  rw [hnote]
  exact hundone

theorem triple_bindUpdate {read : ChangeRecord} {workspaceName changeId : String}
    (hreplays : Replays reg₀ log reg)
    (hfresh : (StoreUpdate.bind read workspaceName changeId).Fresh i reg log workspaces) :
    UpdateTriple reg₀ i reg log (.bind read workspaceName changeId) := by
  have hF := stable_failedInside reg₀ i (.bind read workspaceName changeId) reg log
  have hfail (w : ChangesWorld ι)
      (h : Inside i (.bind read workspaceName changeId) reg.index reg log w) :
      FailedInside i (.bind read workspaceName changeId) reg log w := ⟨nofun, h⟩
  refine triple_bind hF (triple_readIndex hF (.inl hfail)) fun index => triple_of_fact ?_
  rintro rfl
  refine triple_bind hF (triple_writeIndex _ hF (.inl hfail)) fun _ => ?_
  refine (triple_writeActiveRecord _ hF (.inr rfl)).imp ?_ fun _ h => h
  rintro _ w ⟨hid, hw⟩
  refine ⟨_, ?_, hw⟩
  obtain ⟨hread, hown⟩ := hfresh
  obtain rfl := ActiveRecords.changeId_eq hread
  simp only [Held.note]
  split_ifs with hmem
  · obtain ⟨hlink, hindex⟩ := hown hmem
    have hsame : (⟨reg.index.setWorkspaceMapping workspaceName read.changeId,
        reg.active.put (read.link workspaceName) hid, reg.archive⟩ : Registry) = reg := by
      refine Registry.ext hindex (ActiveRecords.put_of_lookup hid ?_) rfl
      rw [hlink, hread]
    rw [hsame]
    exact hreplays
  · exact hreplays.snoc (.bound read workspaceName hid hread)

theorem triple_prUpdate {read : ChangeRecord} {pr : ChangePr} (hreplays : Replays reg₀ log reg)
    (hfresh : (StoreUpdate.pr read pr).Fresh i reg log workspaces) :
    UpdateTriple reg₀ i reg log (.pr read pr) := by
  have hF := stable_failedInside reg₀ i (.pr read pr) reg log
  refine (triple_writeActiveRecord _ hF (.inl fun w h => ⟨nofun, h⟩)).imp ?_ fun _ h => h
  rintro _ w ⟨hid, hw⟩
  exact ⟨_, hreplays.snoc (.stored read pr hid hfresh), hw⟩

theorem triple_closeUpdate {read record : ChangeRecord} {force deleted : Bool}
    (hclosed : ClosedFrom read record) (hreplays : Replays reg₀ log reg)
    (hfresh : (StoreUpdate.close read record force deleted).Fresh i reg log workspaces) :
    UpdateTriple reg₀ i reg log (.close read record force deleted) := by
  have hF := stable_failedInside reg₀ i (.close read record force deleted) reg log
  refine triple_bind hF (triple_writeActiveRecord record hF (.inl fun w h => ⟨nofun, h⟩))
    fun _ => triple_exists fun hid => ?_
  refine triple_bind hF (triple_readIndex hF (.inr rfl)) fun index => triple_of_fact ?_
  rintro rfl
  refine triple_bind hF (triple_writeIndex _ hF (.inr rfl)) fun _ => ?_
  have hput : (reg.active.put record hid).lookup record.changeId = some record := by
    rw [ActiveRecords.lookup_put, if_pos rfl]
  refine triple_bind hF (triple_archiveActiveRecord record.changeId (by simp [hput]) hF (.inr rfl))
    fun archived => triple_of_fact ?_
  rintro rfl
  refine triple_pure (stable_inside _ _ _ _) fun w hw => ⟨_, ?_, hw⟩
  have hstep := hreplays.snoc (e := ⟨i, _⟩) (.closed read record force hfresh.1 hclosed)
  convert hstep using 1
  · rfl
  · simp only [Registry.archiveActiveRecord, ActiveRecords.remove_put hid rfl, hput,
      Option.toList_some]

/-- Every update notes an effect. -/
theorem triple_update {update : StoreUpdate} (hwell : update.WellFormed)
    (hsingle : ∀ id, update = .rollback id → ∃ e, ownLog i log = [e])
    (hreplays : Replays reg₀ log reg) (hfresh : update.Fresh i reg log workspaces) :
    UpdateTriple reg₀ i reg log update := by
  cases update with
  | create record => exact triple_create hreplays hfresh
  | rollback changeId => exact triple_rollback hreplays (hsingle changeId rfl) hfresh
  | bind read workspaceName changeId => exact triple_bindUpdate hreplays hfresh
  | pr read pr => exact triple_prUpdate hreplays hfresh
  | close read record force deleted => exact triple_closeUpdate hwell hreplays hfresh

end Updates

/-- From the lock to its release, an update is one more effect of its process, or it fails and
changes nothing; a rollback does not fail. -/
theorem triple_withStoreLock (update : StoreUpdate) (hwell : update.WellFormed)
    (effects : List (Entry ι)) (hsingle : ∀ id, update = .rollback id → ∃ e, effects = [e])
    {F : ChangesWorld ι → Prop} (hF : Stable (Rely reg₀ i) F)
    (hfail : (∀ id, update ≠ .rollback id) → ∀ w, Outside reg₀ i effects w → F w) :
    SerialTriple reg₀ i (Outside reg₀ i effects) (withStoreLock i update)
      (fun _ w => ∃ found, Outside reg₀ i (Held.note ⟨i, update, found⟩ effects) w) F := by
  have hlockFail : (∀ w, Outside reg₀ i effects w → F w) ∨ AfterUpdate (.lock update) := by
    cases update with
    | rollback id => exact .inr rfl
    | _ => exact .inl (hfail nofun)
  refine triple_bind hF (triple_lock update effects hF hlockFail) fun _ => triple_exists fun x => ?_
  obtain ⟨reg, log⟩ := x
  refine triple_of_fact ?_
  rintro ⟨hreplays, rfl, workspaces, hfresh⟩
  have hrun := triple_update hwell hsingle hreplays hfresh
  have hunlock : SerialTriple reg₀ i (FailedInside i update reg log) (invoke i .unlock)
      (fun _ => F) F := by
    refine triple_of_fact fun hne => ?_
    exact (triple_unlock hreplays hF).imp (fun _ w hw => hfail hne w hw) fun _ h => h
  have hstable (u : Unit) : Stable (Rely reg₀ i) fun w => ∃ reg',
      Replays reg₀ (Held.note ⟨i, update, reg.index⟩ log) reg' ∧
        Inside i update reg.index reg' (Held.note ⟨i, update, reg.index⟩ log) w := by
    rintro w w' hrely ⟨reg', hreg', hw⟩
    exact ⟨reg', hreg', stable_inside _ _ _ _ w w' hrely hw⟩
  refine triple_bind hF (triple_onError hstable hrun ?_ hF) fun _ => ?_
  · refine Meets.imp hunlock ?_
    rintro (e | u) w hw
    · exact hw
    · exact hw
  · refine triple_exists fun reg' => triple_of_fact fun hreplays' => ?_
    refine (triple_unlock hreplays' hF).imp ?_ fun _ h => h
    rintro _ w hw
    refine ⟨reg.index, ?_⟩
    rw [← ownLog_note ⟨i, update, reg.index⟩ log]
    exact hw

end Triples

end Maw.Changes
