import Maw.Changes.Store

/-!
# Changes one after the other

What the commands do to the store, one command after the other: a change is created, bound to
workspaces, given a pull request and closed. A creation can be taken out of such a sequence again
if nothing else was done to its change and if its mappings replaced no others.

## Main definitions

* `Effect.Applies` — what one command does to the store.
* `Replays` — what a sequence of commands does.
* `Registry.undo` — a store without the record and the mappings of a change.

## Main results

* `Replays.without_creation` — a creation that is taken out of a sequence.
* `Replays.linked_of_effect`, `Replays.pr_of_effect`, `Replays.inactive_of_effect`,
  `Replays.closed_between` — what later commands leave of an effect.
-/

namespace Maw.Changes

/-! ### Mappings and records -/

namespace ChangeIndex

variable {index : ChangeIndex} {branch workspace id changeId key : String}

theorem byBranch_setBranchMapping :
    (index.setBranchMapping branch changeId).byBranch.lookup key =
      if key = branch then some changeId else index.byBranch.lookup key :=
  FiniteMap.lookup_insert ..

theorem byWorkspace_setWorkspaceMapping :
    (index.setWorkspaceMapping workspace changeId).byWorkspace.lookup key =
      if key = workspace then some changeId else index.byWorkspace.lookup key :=
  FiniteMap.lookup_insert ..

theorem byBranch_clear : (index.clearMappingsForChange id).byBranch.lookup key =
    (index.byBranch.lookup key).filter (· ≠ id) :=
  FiniteMap.lookup_filterValues ..

theorem byWorkspace_clear : (index.clearMappingsForChange id).byWorkspace.lookup key =
    (index.byWorkspace.lookup key).filter (· ≠ id) :=
  FiniteMap.lookup_filterValues ..

/-- Two indices with the same entries. -/
theorem ext_lookup {a b : ChangeIndex} (hb : ∀ key, a.byBranch.lookup key = b.byBranch.lookup key)
    (hw : ∀ key, a.byWorkspace.lookup key = b.byWorkspace.lookup key) : a = b :=
  ChangeIndex.ext (Finmap.ext_lookup hb) (Finmap.ext_lookup hw)

theorem clear_setBranchMapping (hne : changeId ≠ id) :
    (index.setBranchMapping branch changeId).clearMappingsForChange id =
      (index.clearMappingsForChange id).setBranchMapping branch changeId := by
  refine ext_lookup (fun key => ?_) fun key => rfl
  rw [byBranch_clear, byBranch_setBranchMapping, byBranch_setBranchMapping, byBranch_clear]
  split_ifs
  · simp [hne]
  · rfl

theorem clear_setWorkspaceMapping (hne : changeId ≠ id) :
    (index.setWorkspaceMapping workspace changeId).clearMappingsForChange id =
      (index.clearMappingsForChange id).setWorkspaceMapping workspace changeId := by
  refine ext_lookup (fun key => rfl) fun key => ?_
  rw [byWorkspace_clear, byWorkspace_setWorkspaceMapping, byWorkspace_setWorkspaceMapping,
    byWorkspace_clear]
  split_ifs
  · simp [hne]
  · rfl

theorem clear_comm (a b : String) :
    (index.clearMappingsForChange a).clearMappingsForChange b =
      (index.clearMappingsForChange b).clearMappingsForChange a := by
  have hswap (o : Option String) :
      (o.filter (· ≠ a)).filter (· ≠ b) = (o.filter (· ≠ b)).filter (· ≠ a) := by
    rw [Option.filter_filter, Option.filter_filter]
    simp only [Bool.and_comm]
  refine ext_lookup (fun key => ?_) fun key => ?_
  · rw [byBranch_clear, byBranch_clear, byBranch_clear, byBranch_clear, hswap]
  · rw [byWorkspace_clear, byWorkspace_clear, byWorkspace_clear, byWorkspace_clear, hswap]

/-- No entry names the change. -/
def Omits (index : ChangeIndex) (id : String) : Prop :=
  (∀ key, index.byBranch.lookup key ≠ some id) ∧ ∀ key, index.byWorkspace.lookup key ≠ some id

/-- All entries of an index are in another one. -/
def Within (a b : ChangeIndex) : Prop :=
  (∀ key v, a.byBranch.lookup key = some v → b.byBranch.lookup key = some v) ∧
    ∀ key v, a.byWorkspace.lookup key = some v → b.byWorkspace.lookup key = some v

theorem Within.refl (a : ChangeIndex) : a.Within a := ⟨fun _ _ h => h, fun _ _ h => h⟩

theorem clear_within (a : ChangeIndex) (id : String) : (a.clearMappingsForChange id).Within a := by
  constructor
  · intro key v h
    rw [byBranch_clear] at h
    exact (Option.filter_eq_some_iff.mp h).1
  · intro key v h
    rw [byWorkspace_clear] at h
    exact (Option.filter_eq_some_iff.mp h).1

theorem Within.trans {a b c : ChangeIndex} (h : a.Within b) (h' : b.Within c) : a.Within c :=
  ⟨fun key v hv => h'.1 key v (h.1 key v hv), fun key v hv => h'.2 key v (h.2 key v hv)⟩

theorem Within.lookup_branch {a b : ChangeIndex} (h : a.Within b)
    (hb : b.byBranch.lookup key = none) : a.byBranch.lookup key = none := by
  cases hv : a.byBranch.lookup key with
  | none => rfl
  | some v =>
    rw [h.1 key v hv] at hb
    cases hb

theorem Within.lookup_workspace {a b : ChangeIndex} (h : a.Within b)
    (hb : b.byWorkspace.lookup key = none) : a.byWorkspace.lookup key = none := by
  cases hv : a.byWorkspace.lookup key with
  | none => rfl
  | some v =>
    rw [h.2 key v hv] at hb
    cases hb

theorem Omits.within {a b : ChangeIndex} (hb : b.Omits id) (h : a.Within b) : a.Omits id :=
  ⟨fun key hv => hb.1 key (h.1 key id hv), fun key hv => hb.2 key (h.2 key id hv)⟩

/-- New mappings of a branch and a workspace that had none are cleared again. -/
theorem clear_set (homits : index.Omits id) (hb : index.byBranch.lookup branch = none)
    (hw : index.byWorkspace.lookup workspace = none) :
    ((index.setBranchMapping branch id).setWorkspaceMapping workspace
      id).clearMappingsForChange id = index := by
  have hkeep (o : Option String) (ho : o ≠ some id) : o.filter (· ≠ id) = o := by
    cases o with
    | none => rfl
    | some v =>
      have hv : v ≠ id := fun heq => ho (by rw [heq])
      simp [Option.filter, hv]
  refine ext_lookup (fun key => ?_) fun key => ?_
  · rw [byBranch_clear]
    show ((index.setBranchMapping branch id).byBranch.lookup key).filter _ = _
    rw [byBranch_setBranchMapping]
    split_ifs with hkey
    · rw [hkey, hb]
      simp [Option.filter]
    · exact hkeep _ (homits.1 key)
  · rw [byWorkspace_clear, byWorkspace_setWorkspaceMapping]
    split_ifs with hkey
    · rw [hkey, hw]
      simp [Option.filter]
    · exact hkeep _ (homits.2 key)

end ChangeIndex

namespace ActiveRecords

variable {active : ActiveRecords}

theorem put_remove_comm {record : ChangeRecord} {id : String} (h : validChangeId record.changeId)
    (hne : record.changeId ≠ id) :
    (active.put record h).remove id = (active.remove id).put record h := by
  ext1 key
  rw [lookup_remove, lookup_put, lookup_put, lookup_remove]
  split_ifs with hid hkey
  · exact absurd (hkey.symm.trans hid) hne
  · rfl
  · rfl
  · rfl

theorem remove_comm (a b : String) : (active.remove a).remove b = (active.remove b).remove a := by
  ext1 key
  rw [lookup_remove, lookup_remove, lookup_remove, lookup_remove]
  split_ifs <;> rfl

theorem remove_put {record : ChangeRecord} (h : validChangeId record.changeId)
    {id : String} (hid : record.changeId = id) :
    (active.put record h).remove id = active.remove id := by
  ext1 key
  rw [lookup_remove, lookup_put, lookup_remove]
  split_ifs with hkey hkey'
  · rfl
  · exact absurd (hkey'.trans hid) hkey
  · rfl

theorem remove_of_lookup {id : String} (h : active.lookup id = none) :
    active.remove id = active := by
  ext1 key
  rw [lookup_remove]
  split_ifs with hkey
  · rw [hkey, h]
  · rfl

/-- A record that is written as it is. -/
theorem put_of_lookup {record : ChangeRecord} (h : validChangeId record.changeId)
    (hrecord : active.lookup record.changeId = some record) : active.put record h = active := by
  ext1 key
  rw [lookup_put]
  split_ifs with hkey
  · rw [hkey, hrecord]
  · rfl

theorem lookup_remove_of_ne {id key : String} (hne : key ≠ id) :
    (active.remove id).lookup key = active.lookup key := by
  rw [lookup_remove, if_neg hne]

end ActiveRecords

theorem ChangeRecord.linked_link (record : ChangeRecord) (workspace : String) :
    (record.link workspace).workspaces.linked = if workspace ∈ record.workspaces.linked then
      record.workspaces.linked else record.workspaces.linked ++ [workspace] := rfl

theorem ChangeRecord.mem_linked_link (record : ChangeRecord) (workspace : String) :
    workspace ∈ (record.link workspace).workspaces.linked := by
  rw [linked_link]
  split_ifs with h
  · exact h
  · exact List.mem_append_right _ List.mem_cons_self

theorem ChangeRecord.linked_subset_link (record : ChangeRecord) (workspace : String) :
    record.workspaces.linked ⊆ (record.link workspace).workspaces.linked := by
  rw [linked_link]
  split_ifs
  · exact List.Subset.refl _
  · exact List.subset_append_left ..

/-! ### Effects -/

/-- A record as it is closed: its state may differ, and its pull request may have been merged. -/
def ClosedFrom (read record : ChangeRecord) : Prop :=
  ∃ state pr, record = { read with state, pr } ∧
    (pr = read.pr ∨ ∃ p, read.pr = some p ∧ pr = some { p with state := "merged" })

theorem ClosedFrom.changeId {read record : ChangeRecord} (h : ClosedFrom read record) :
    record.changeId = read.changeId := by
  obtain ⟨state, pr, rfl, -⟩ := h
  rfl

theorem ClosedFrom.withState {read record : ChangeRecord} (h : ClosedFrom read record)
    (state : ChangeState) : ClosedFrom read { record with state } := by
  obtain ⟨_, pr, rfl, hpr⟩ := h
  exact ⟨state, pr, rfl, hpr⟩

/-- What a command does to the store. -/
inductive Effect.Applies (reg : Registry) : Effect → Registry → Prop
  | created (record : ChangeRecord) (found : ChangeIndex) (hid : validChangeId record.changeId)
      (habsent : reg.active.lookup record.changeId = none) (hfound : reg.index.Within found) :
      Applies reg (.created record found)
        { index := (reg.index.setBranchMapping record.git.changeBranch
            record.changeId).setWorkspaceMapping record.workspaces.primary record.changeId
          active := reg.active.put record hid
          archive := reg.archive }
  | bound (read : ChangeRecord) (workspace : String)
      (hid : validChangeId (read.link workspace).changeId)
      (hread : reg.active.lookup read.changeId = some read) :
      Applies reg (.bound read.changeId workspace)
        { index := reg.index.setWorkspaceMapping workspace read.changeId
          active := reg.active.put (read.link workspace) hid
          archive := reg.archive }
  | stored (read : ChangeRecord) (pr : ChangePr)
      (hid : validChangeId { read with pr := some pr }.changeId)
      (hread : reg.active.lookup read.changeId = some read) :
      Applies reg (.stored read.changeId pr)
        { reg with active := reg.active.put { read with pr := some pr } hid }
  | closed (read record : ChangeRecord) (force : Bool)
      (hread : reg.active.lookup read.changeId = some read) (hclosed : ClosedFrom read record) :
      Applies reg (.closed record force)
        { index := reg.index.clearMappingsForChange record.changeId
          active := reg.active.remove record.changeId
          archive := reg.archive ++ [record] }

/-- The store without a change. -/
def Registry.undo (reg : Registry) (id : String) : Registry where
  index := reg.index.clearMappingsForChange id
  active := reg.active.remove id
  archive := reg.archive

/-- What is done to another change is done without this one as well. -/
theorem Effect.Applies.undo {reg reg' : Registry} {e : Effect} (h : e.Applies reg reg')
    {id : String} (hne : e.changeId ≠ id) : e.Applies (reg.undo id) (reg'.undo id) := by
  cases h with
  | created record found hid habsent hfound =>
    have hrest : (Effect.created record found).Applies (reg.undo id) _ := .created record found hid
      ((ActiveRecords.lookup_remove_of_ne hne).trans habsent)
      ((reg.index.clear_within id).trans hfound)
    have hne : record.changeId ≠ id := hne
    convert hrest using 1
    simp only [Registry.undo]
    rw [ChangeIndex.clear_setWorkspaceMapping hne, ChangeIndex.clear_setBranchMapping hne,
      ActiveRecords.put_remove_comm hid hne]
  | bound read workspace hid hread =>
    have hrest : (Effect.bound read.changeId workspace).Applies (reg.undo id) _ :=
      .bound read workspace hid
      ((ActiveRecords.lookup_remove_of_ne hne).trans hread)
    have hne : read.changeId ≠ id := hne
    convert hrest using 1
    simp only [Registry.undo]
    rw [ChangeIndex.clear_setWorkspaceMapping hne, ActiveRecords.put_remove_comm hid hne]
  | stored read pr hid hread =>
    have hrest : (Effect.stored read.changeId pr).Applies (reg.undo id) _ := .stored read pr hid
      ((ActiveRecords.lookup_remove_of_ne hne).trans hread)
    convert hrest using 1
    simp only [Registry.undo]
    rw [ActiveRecords.put_remove_comm hid hne]
  | closed read record force hread hclosed =>
    have hne' : read.changeId ≠ id := by rwa [← hclosed.changeId]
    have hrest : (Effect.closed record force).Applies (reg.undo id) _ := .closed read record force
      ((ActiveRecords.lookup_remove_of_ne hne').trans hread) hclosed
    convert hrest using 1
    simp only [Registry.undo]
    rw [ChangeIndex.clear_comm, ActiveRecords.remove_comm]

/-- A creation is undone if its mappings are new. -/
theorem Effect.Applies.undo_created {reg reg' : Registry} {record : ChangeRecord}
    {found : ChangeIndex} (h : (Effect.created record found).Applies reg reg')
    (homits : found.Omits record.changeId)
    (hbranch : found.byBranch.lookup record.git.changeBranch = none)
    (hworkspace : found.byWorkspace.lookup record.workspaces.primary = none) :
    reg'.undo record.changeId = reg := by
  cases h with
  | created _ _ hid habsent hfound =>
    simp only [Registry.undo]
    rw [ChangeIndex.clear_set (homits.within hfound) (hfound.lookup_branch hbranch)
      (hfound.lookup_workspace hworkspace), ActiveRecords.remove_put hid rfl,
      ActiveRecords.remove_of_lookup habsent]

/-! ### Sequences -/

variable {ι : Type}

/-- What commands do one after the other. -/
inductive Replays : Registry → List (Entry ι) → Registry → Prop
  | nil (reg : Registry) : Replays reg [] reg
  | cons {reg reg' reg'' : Registry} {e : Entry ι} {log : List (Entry ι)}
      (h : e.effect.Applies reg reg') (hrest : Replays reg' log reg'') :
      Replays reg (e :: log) reg''

namespace Replays

variable {reg reg' reg'' : Registry} {log log' : List (Entry ι)} {e : Entry ι} {id : String}

theorem append (h : Replays reg log reg') (h' : Replays reg' log' reg'') :
    Replays reg (log ++ log') reg'' := by
  induction h with
  | nil reg => exact h'
  | cons hstep _ ih => exact .cons hstep (ih h')

theorem snoc (h : Replays reg log reg') (he : e.effect.Applies reg' reg'') :
    Replays reg (log ++ [e]) reg'' :=
  h.append (.cons he (.nil _))

theorem of_append (h : Replays reg (log ++ log') reg'') :
    ∃ reg', Replays reg log reg' ∧ Replays reg' log' reg'' := by
  induction log generalizing reg with
  | nil => exact ⟨reg, .nil reg, h⟩
  | cons e log ih =>
    cases h with
    | cons hstep hrest =>
      obtain ⟨m, hm, hm'⟩ := ih hrest
      exact ⟨m, .cons hstep hm, hm'⟩

theorem undo (h : Replays reg log reg') (hne : ∀ e ∈ log, e.effect.changeId ≠ id) :
    Replays (reg.undo id) log (reg'.undo id) := by
  induction h with
  | nil reg => exact .nil _
  | cons hstep _ ih =>
    refine .cons (hstep.undo (hne _ List.mem_cons_self)) (ih fun e he => ?_)
    exact hne e (List.mem_cons_of_mem _ he)

/-- A creation that nothing else was done to is taken out of a sequence. -/
theorem without_creation {who : ι} {record : ChangeRecord} {found : ChangeIndex}
    (h : Replays reg (log ++ ⟨who, .created record found⟩ :: log') reg')
    (hne : ∀ e ∈ log', e.effect.changeId ≠ record.changeId)
    (homits : found.Omits record.changeId)
    (hbranch : found.byBranch.lookup record.git.changeBranch = none)
    (hworkspace : found.byWorkspace.lookup record.workspaces.primary = none) :
    Replays reg (log ++ log') (reg'.undo record.changeId) := by
  obtain ⟨m, hfirst, hrest⟩ := h.of_append
  cases hrest with
  | cons hcreated hlater =>
    have hlater := hlater.undo hne
    rw [hcreated.undo_created homits hbranch hworkspace] at hlater
    exact hfirst.append hlater

end Replays

/-! ### What later commands leave -/

namespace Effect

/-- The effect closes the change. -/
def Closes (id : String) (e : Effect) : Prop :=
  ∃ record force, e = .closed record force ∧ record.changeId = id

/-- The effect creates the change. -/
def Creates (id : String) (e : Effect) : Prop :=
  ∃ record found, e = .created record found ∧ record.changeId = id

/-- The effect links the workspace to the change. -/
def Links (id workspace : String) (e : Effect) : Prop :=
  e = .bound id workspace ∨ ∃ record found, e = .created record found ∧ record.changeId = id ∧
    workspace ∈ record.workspaces.linked

/-- The effect stores a pull request of the change. -/
def Stores (id : String) (e : Effect) : Prop := ∃ pr, e = .stored id pr

variable {reg reg' : Registry} {e : Effect} {id : String} {record : ChangeRecord}

/-- A record that is not closed stays, with its workspaces. -/
theorem Applies.active (h : e.Applies reg reg') (hrecord : reg.active.lookup id = some record)
    (hopen : ¬ e.Closes id) : ∃ record', reg'.active.lookup id = some record' ∧
      record.workspaces.linked ⊆ record'.workspaces.linked ∧
        (¬ e.Stores id → record'.pr = record.pr) := by
  cases h with
  | created new found hid habsent hfound =>
    have hne : id ≠ new.changeId := by
      rintro rfl
      rw [habsent] at hrecord
      cases hrecord
    exact ⟨record, by rw [ActiveRecords.lookup_put, if_neg hne, hrecord], fun _ h => h,
      fun _ => rfl⟩
  | bound read workspace hid hread =>
    by_cases heq : id = read.changeId
    · obtain rfl : read = record := by
        rw [heq, hread] at hrecord
        exact Option.some.inj hrecord
      exact ⟨read.link workspace, (ActiveRecords.lookup_put _ _ hid id).trans (if_pos heq),
        read.linked_subset_link workspace, fun _ => rfl⟩
    · exact ⟨record, (ActiveRecords.lookup_put _ _ hid id).trans ((if_neg heq).trans hrecord),
        fun _ h => h, fun _ => rfl⟩
  | stored read pr hid hread =>
    by_cases heq : id = read.changeId
    · obtain rfl : read = record := by
        rw [heq, hread] at hrecord
        exact Option.some.inj hrecord
      exact ⟨{ read with pr := some pr }, (ActiveRecords.lookup_put _ _ hid id).trans (if_pos heq),
        fun _ h => h, fun hstores => absurd ⟨pr, by rw [heq]⟩ hstores⟩
    · exact ⟨record, (ActiveRecords.lookup_put _ _ hid id).trans ((if_neg heq).trans hrecord),
        fun _ h => h, fun _ => rfl⟩
  | closed read closedRecord force hread hclosed =>
    have hne : id ≠ closedRecord.changeId := fun heq => hopen ⟨_, _, rfl, heq.symm⟩
    exact ⟨record, by rw [ActiveRecords.lookup_remove, if_neg hne, hrecord], fun _ h => h,
      fun _ => rfl⟩

/-- A change that was closed is not active. -/
theorem Applies.inactive_of_closes (h : e.Applies reg reg') (hcloses : e.Closes id) :
    reg'.active.lookup id = none := by
  obtain ⟨closedRecord, force, rfl, rfl⟩ := hcloses
  cases h with
  | closed read _ _ hread hclosed => exact (ActiveRecords.lookup_remove ..).trans (if_pos rfl)

/-- A pull request is stored for an active change. -/
theorem Applies.active_of_stores (h : e.Applies reg reg') (hstores : e.Stores id) :
    reg.active.lookup id ≠ none := by
  obtain ⟨pr, rfl⟩ := hstores
  cases h with
  | stored read _ hid hread =>
    rw [hread]
    exact Option.some_ne_none read

/-- A workspace that is linked is in the record. -/
theorem Applies.links (h : e.Applies reg reg') {workspace : String} (he : e.Links id workspace) :
    ∃ record, reg'.active.lookup id = some record ∧ workspace ∈ record.workspaces.linked := by
  rcases he with rfl | ⟨record, found, rfl, rfl, hlinked⟩
  · cases h with
    | bound read _ hid hread =>
      exact ⟨read.link workspace, (ActiveRecords.lookup_put _ _ hid _).trans (if_pos rfl),
        read.mem_linked_link workspace⟩
  · cases h with
    | created _ _ hid habsent hfound =>
      exact ⟨record, (ActiveRecords.lookup_put _ _ hid _).trans (if_pos rfl), hlinked⟩

/-- A change that is not active stays so until it is created. -/
theorem Applies.inactive (h : e.Applies reg reg') (hnone : reg.active.lookup id = none)
    (hnew : ¬ e.Creates id) : reg'.active.lookup id = none := by
  cases h with
  | created new found hid habsent hfound =>
    have hne : id ≠ new.changeId := fun heq => hnew ⟨_, _, rfl, heq.symm⟩
    rw [ActiveRecords.lookup_put, if_neg hne, hnone]
  | bound read workspace hid hread =>
    have hne : id ≠ read.changeId := by
      rintro rfl
      rw [hread] at hnone
      cases hnone
    exact (ActiveRecords.lookup_put _ _ hid id).trans ((if_neg hne).trans hnone)
  | stored read pr hid hread =>
    have hne : id ≠ read.changeId := by
      rintro rfl
      rw [hread] at hnone
      cases hnone
    exact (ActiveRecords.lookup_put _ _ hid id).trans ((if_neg hne).trans hnone)
  | closed read closedRecord force hread hclosed =>
    rw [ActiveRecords.lookup_remove]
    split_ifs
    · rfl
    · exact hnone

/-- A close archives the record with its pull request. -/
theorem Applies.archives (h : e.Applies reg reg') (hcloses : e.Closes id) {pr : ChangePr}
    (hrecord : reg.active.lookup id = some record) (hpr : record.pr = some pr) :
    ∃ record' pr', record' ∈ reg'.archive ∧ record'.changeId = id ∧ record'.pr = some pr' ∧
      (pr' = pr ∨ pr' = { pr with state := "merged" }) := by
  obtain ⟨closedRecord, force, rfl, rfl⟩ := hcloses
  cases h with
  | closed read _ _ hread hclosed =>
    obtain rfl : read = record := by
      rw [hclosed.changeId, hread] at hrecord
      exact Option.some.inj hrecord
    obtain ⟨state, pr', rfl, hkept⟩ := hclosed
    rcases hkept with rfl | ⟨p, hp, rfl⟩
    · exact ⟨_, pr, List.mem_append_right _ List.mem_cons_self, rfl, hpr, .inl rfl⟩
    · obtain rfl := Option.some.inj (hpr.symm.trans hp)
      exact ⟨_, _, List.mem_append_right _ List.mem_cons_self, rfl, rfl, .inr rfl⟩

theorem Applies.archive_subset (h : e.Applies reg reg') : reg.archive ⊆ reg'.archive := by
  cases h with
  | closed read record force hread hclosed => exact List.subset_append_left ..
  | _ => exact List.Subset.refl _

end Effect

namespace Replays

variable {reg reg' : Registry} {log : List (Entry ι)} {id : String} {record : ChangeRecord}

/-- A workspace that is linked stays so until the change is closed. -/
theorem linked (h : Replays reg log reg') (hrecord : reg.active.lookup id = some record)
    (hopen : ∀ e ∈ log, ¬ e.effect.Closes id) : ∃ record', reg'.active.lookup id = some record' ∧
      record.workspaces.linked ⊆ record'.workspaces.linked ∧
        ((∀ e ∈ log, ¬ e.effect.Stores id) → record'.pr = record.pr) := by
  induction h generalizing record with
  | nil reg => exact ⟨record, hrecord, fun _ h => h, fun _ => rfl⟩
  | cons hstep _ ih =>
    obtain ⟨record₁, h₁, hlinked₁, hpr₁⟩ := hstep.active hrecord (hopen _ List.mem_cons_self)
    obtain ⟨record₂, h₂, hlinked₂, hpr₂⟩ := ih h₁ fun e he => hopen e (List.mem_cons_of_mem _ he)
    refine ⟨record₂, h₂, List.Subset.trans hlinked₁ hlinked₂, fun hstores => ?_⟩
    rw [hpr₂ fun e he => hstores e (List.mem_cons_of_mem _ he),
      hpr₁ (hstores _ List.mem_cons_self)]

/-- A change that is closed is not active until it is created again. -/
theorem closed_inactive (h : Replays reg log reg') (hnone : reg.active.lookup id = none)
    (hnew : ∀ e ∈ log, ¬ e.effect.Creates id) : reg'.active.lookup id = none := by
  induction h with
  | nil reg => exact hnone
  | cons hstep _ ih =>
    exact ih (hstep.inactive hnone (hnew _ List.mem_cons_self))
      fun e he => hnew e (List.mem_cons_of_mem _ he)

/-- What is archived stays archived. -/
theorem archive_subset (h : Replays reg log reg') : reg.archive ⊆ reg'.archive := by
  induction h with
  | nil reg => exact List.Subset.refl _
  | cons hstep _ ih => exact List.Subset.trans hstep.archive_subset ih

/-- A pull request that is stored stays in the record of its change, closed or not. -/
theorem pr_kept (h : Replays reg log reg') {pr : ChangePr}
    (hrecord : reg.active.lookup id = some record) (hpr : record.pr = some pr)
    (hstores : ∀ e ∈ log, ¬ e.effect.Stores id) : ∃ record' pr',
      (reg'.active.lookup id = some record' ∨ record' ∈ reg'.archive ∧ record'.changeId = id) ∧
        record'.pr = some pr' ∧ (pr' = pr ∨ pr' = { pr with state := "merged" }) := by
  induction h generalizing record with
  | nil reg => exact ⟨record, pr, .inl hrecord, hpr, .inl rfl⟩
  | @cons reg reg₁ reg' e log hstep hrest ih =>
    by_cases hcloses : e.effect.Closes id
    · obtain ⟨closedRecord, pr', harchived, hid, hpr'⟩ := hstep.archives hcloses hrecord hpr
      exact ⟨closedRecord, pr', .inr ⟨hrest.archive_subset harchived, hid⟩, hpr'⟩
    · obtain ⟨record₁, h₁, -, hpr₁⟩ := hstep.active hrecord hcloses
      exact ih h₁ ((hpr₁ (hstores e List.mem_cons_self)).trans hpr)
        fun e he => hstores e (List.mem_cons_of_mem _ he)

/-! ### Where an effect stands in a sequence -/

section Within

variable {before after : List (Entry ι)} {who : ι}

/-- After an effect, only later ones matter. -/
theorem after_effect {e : Effect} (h : Replays reg (before ++ ⟨who, e⟩ :: after) reg') :
    ∃ m m', e.Applies m m' ∧ Replays m' after reg' := by
  obtain ⟨m, -, hrest⟩ := h.of_append
  cases hrest with
  | cons hstep hlater => exact ⟨m, _, hstep, hlater⟩

/-- A workspace that was linked to a change is in its record until the change is closed. -/
theorem linked_of_effect {e : Effect} {workspace : String} (he : e.Links id workspace)
    (h : Replays reg (before ++ ⟨who, e⟩ :: after) reg')
    (hopen : ∀ e ∈ after, ¬ e.effect.Closes id) :
    ∃ record, reg'.active.lookup id = some record ∧ workspace ∈ record.workspaces.linked := by
  obtain ⟨m, m', hstep, hlater⟩ := h.after_effect
  obtain ⟨record, hrecord, hlinked⟩ := hstep.links he
  obtain ⟨record', hrecord', hsubset, -⟩ := hlater.linked hrecord hopen
  exact ⟨record', hrecord', hsubset hlinked⟩

/-- A pull request that was stored is in the record of its change, closed or not. -/
theorem pr_of_effect {pr : ChangePr}
    (h : Replays reg (before ++ ⟨who, .stored id pr⟩ :: after) reg')
    (hstores : ∀ e ∈ after, ¬ e.effect.Stores id) : ∃ record pr',
      (reg'.active.lookup id = some record ∨ record ∈ reg'.archive ∧ record.changeId = id) ∧
        record.pr = some pr' ∧ (pr' = pr ∨ pr' = { pr with state := "merged" }) := by
  obtain ⟨m, m', hstep, hlater⟩ := h.after_effect
  cases hstep with
  | stored read _ hid hread =>
    exact hlater.pr_kept ((ActiveRecords.lookup_put _ _ hid _).trans (if_pos rfl)) rfl hstores

/-- A change that was closed is active only if it was created again. -/
theorem inactive_of_effect {record : ChangeRecord} {force : Bool}
    (h : Replays reg (before ++ ⟨who, .closed record force⟩ :: after) reg')
    (hnew : ∀ e ∈ after, ¬ e.effect.Creates record.changeId) :
    reg'.active.lookup record.changeId = none := by
  obtain ⟨m, m', hstep, hlater⟩ := h.after_effect
  exact hlater.closed_inactive (hstep.inactive_of_closes ⟨record, force, rfl, rfl⟩) hnew

/-- Between two creations of a change, it was closed. -/
theorem closed_between {between : List (Entry ι)} {who' : ι} {record record' : ChangeRecord}
    {found found' : ChangeIndex} (hid : record'.changeId = record.changeId)
    (h : Replays reg (before ++ ⟨who, .created record found⟩ ::
      (between ++ ⟨who', .created record' found'⟩ :: after)) reg') :
    ∃ e ∈ between, e.effect.Closes record.changeId := by
  obtain ⟨m, m', hfirst, hlater⟩ := h.after_effect
  obtain ⟨m'', hbetween, hrest⟩ := hlater.of_append
  by_contra hopen
  push Not at hopen
  cases hfirst with
  | created _ _ hvalid habsent _ =>
    obtain ⟨kept, hkept, -⟩ := hbetween.linked
      ((ActiveRecords.lookup_put _ _ hvalid _).trans (if_pos rfl)) hopen
    cases hrest with
    | cons hsecond _ =>
      cases hsecond with
      | created _ _ _ habsent' _ =>
        rw [hid, hkept] at habsent'
        cases habsent'

end Within

end Replays

end Maw.Changes
