import Mathlib.Data.List.TakeWhile
import Maw.Oplog.Checkpoint

/-!
# Replay from a checkpoint against the full replay

The view that is restored from the latest checkpoint holds what the full replay yields, but for
the number of operations: a checkpoint records how many operations came before it and does not
count itself.

## Main definitions

* `SameView` — two views agree, apart from the records of checkpoints.
* `LogRun` — the logs that appends and checkpoints build.

## Main results

* `exists_restored` — what is restored from a checkpoint.
* `replaysAgree_iff` — the two replays return the same view exactly if there is no checkpoint.
-/

open Interleaved

namespace Maw.Oplog

open LastWrite ExceptRun

/-- Two views agree on everything but the number of operations and the records of
checkpoints. -/
structure SameContent (v w : MaterializedView) : Prop where
  workspaceId : v.workspaceId = w.workspaceId
  epoch : v.epoch = w.epoch
  patchSet : v.patchSet = w.patchSet
  patchSetOid : v.patchSetOid = w.patchSetOid
  description : v.description = w.description
  isDestroyed : v.isDestroyed = w.isDestroyed
  annotations : ∀ key, key ≠ checkpointKey → v.annotations.lookup key = w.annotations.lookup key

/-- Two views agree, apart from the records of checkpoints. -/
def SameView (v w : MaterializedView) : Prop := SameContent v w ∧ v.opCount = w.opCount

section Content

variable {readPatchSet : PatchSetReader} {ws : NamedWorkspace} {v w u : MaterializedView}

theorem SameContent.refl (v : MaterializedView) : SameContent v v :=
  ⟨rfl, rfl, rfl, rfl, rfl, rfl, fun _ _ => rfl⟩

theorem SameContent.trans (h : SameContent v w) (h' : SameContent w u) : SameContent v u where
  workspaceId := h.workspaceId.trans h'.workspaceId
  epoch := h.epoch.trans h'.epoch
  patchSet := h.patchSet.trans h'.patchSet
  patchSetOid := h.patchSetOid.trans h'.patchSetOid
  description := h.description.trans h'.description
  isDestroyed := h.isDestroyed.trans h'.isDestroyed
  annotations key hkey := (h.annotations key hkey).trans (h'.annotations key hkey)

/-- The same operations keep two views in agreement. -/
theorem SameContent.after (h : SameContent v w) (payloads : List OpPayload) :
    SameContent (v.after readPatchSet payloads) (w.after readPatchSet payloads) where
  workspaceId := h.workspaceId
  epoch := by simp only [MaterializedView.after, h.epoch]
  patchSet := by simp only [MaterializedView.after, h.patchSet]
  patchSetOid := by simp only [MaterializedView.after, h.patchSetOid]
  description := by simp only [MaterializedView.after, h.description]
  isDestroyed := by simp only [MaterializedView.after, h.isDestroyed]
  annotations key hkey := by
    rw [MaterializedView.lookup_annotations_after, MaterializedView.lookup_annotations_after,
      h.annotations key hkey]

/-- A checkpoint writes its record only. -/
theorem sameContent_checkpoint {payload : OpPayload} (h : payload.isCheckpoint = true) :
    SameContent (v.after readPatchSet [payload]) v := by
  rcases payload with _ | _ | _ | _ | _ | _ | _ | _ | _ | ⟨key, data⟩ | _
  case annotate =>
    have hkey : key = checkpointKey := by simpa [OpPayload.isCheckpoint] using h
    refine ⟨rfl, rfl, rfl, rfl, rfl, rfl, fun key' hne => ?_⟩
    rw [MaterializedView.lookup_annotations_after, lastWrite_cons, OpPayload.annotationWrite,
      if_neg (by rw [hkey]; exact hne)]
    rfl
  all_goals simp [OpPayload.isCheckpoint] at h

theorem sameContent_filter (v : MaterializedView) :
    SameContent v { v with annotations := v.annotations.filterKeys (· ≠ checkpointKey) } := by
  refine ⟨rfl, rfl, rfl, rfl, rfl, rfl, fun key hkey => ?_⟩
  change _ = (v.annotations.filterKeys _).lookup key
  rw [FiniteMap.lookup_filterKeys, if_pos hkey]

end Content

/-! ### The views of a chain -/

/-- What the operations of a chain did, the oldest first. -/
def payloads (chain : List (GitOid × Operation)) : List OpPayload :=
  chain.reverse.map fun e => e.2.payload

@[simp]
theorem payloads_cons (e : GitOid × Operation) (chain : List (GitOid × Operation)) :
    payloads (e :: chain) = payloads chain ++ [e.2.payload] := by
  simp [payloads]

@[simp]
theorem length_payloads (chain : List (GitOid × Operation)) :
    (payloads chain).length = chain.length := by
  simp [payloads]

section Chain

variable {readPatchSet : PatchSetReader} {ws : NamedWorkspace} {log : OpLog} {head : GitOid}
  {chain : List (GitOid × Operation)}

theorem materialize_of_walk (h : log.walkChain ws none none = .ok chain) :
    materialize log ws readPatchSet =
      (OpPayload.readAll readPatchSet (payloads chain)).map fun _ =>
        (MaterializedView.empty ws).after readPatchSet (payloads chain) := by
  rw [materialize, h]
  exact replay_eq _ _

theorem materializeFromCheckpoint_of_walk (h : log.walkChain ws none none = .ok chain) :
    materializeFromCheckpoint log ws readPatchSet = replayChain ws readPatchSet chain := by
  have hne : chain.isEmpty = false :=
    List.isEmpty_eq_false_iff.mpr (OpLog.ne_nil_of_walkChain h)
  rw [materializeFromCheckpoint, h]
  change (if chain.isEmpty = true then _ else _) = _
  rw [hne]
  rfl

/-- A chain without checkpoints is replayed in full. -/
theorem replayChain_of_no_checkpoint (h : ∀ e ∈ chain, isCheckpoint e.2 = false) :
    replayChain ws readPatchSet chain =
      ((OpPayload.readAll readPatchSet (payloads chain)).map fun _ =>
        (MaterializedView.empty ws).after readPatchSet (payloads chain)).mapError .view := by
  have hfrom : fromCheckpoint chain = [] := by
    rw [fromCheckpoint, List.dropWhile_eq_nil_iff]
    intro e he
    rw [h e he, Bool.not_false]
  rw [replayChain, hfrom]
  exact congrArg (Except.mapError _) (replay_eq _ _)

/-- The logs that end at an operation. -/
def headedBy (s : OpStore) (ws : NamedWorkspace) (head : GitOid) : OpLog :=
  ⟨s, Finmap.singleton (workspaceHeadRef ws) head⟩

@[simp]
theorem readHead_headedBy (s : OpStore) (ws : NamedWorkspace) (head : GitOid) :
    (headedBy s ws head).readHead ws = some head :=
  Finmap.lookup_singleton_eq

/-- The view is the one that a replay of the log returns. -/
def IsCurrentView (readPatchSet : PatchSetReader) (ws : NamedWorkspace) (log : OpLog)
    (view : MaterializedView) : Prop :=
  materialize log ws readPatchSet = .ok view ∨
    materializeFromCheckpoint log ws readPatchSet = .ok view

/-- An operation, and with it those before it, is either no checkpoint or one of the view at the
operation before it. -/
inductive Written (readPatchSet : PatchSetReader) (ws : NamedWorkspace) (s : OpStore) :
    GitOid → Prop
  | append {oid : GitOid} {op : Operation} (hop : s.nodes.lookup oid = some op)
      (hnot : isCheckpoint op = false)
      (hparents : ∀ parent ∈ op.parentIds, Written readPatchSet ws s parent) :
      Written readPatchSet ws s oid
  | checkpoint {oid parent trigger : GitOid} {view : MaterializedView} {timestamp : String}
      (hop : s.nodes.lookup oid = some (createCheckpointOp view trigger parent timestamp))
      (hparent : Written readPatchSet ws s parent)
      (hview : IsCurrentView readPatchSet ws (headedBy s ws parent) view) :
      Written readPatchSet ws s oid

/-- The replay of a chain from its latest checkpoint succeeds as the full replay does, with a
view that holds the same but for the checkpoint that it does not count. -/
structure RestoredAs (readPatchSet : PatchSetReader) (ws : NamedWorkspace)
    (chain : List (GitOid × Operation)) (w : MaterializedView) : Prop where
  replay : replayChain ws readPatchSet chain =
    ((OpPayload.readAll readPatchSet (payloads chain)).map fun _ => w).mapError
      CheckpointError.view
  content : SameContent ((MaterializedView.empty ws).after readPatchSet (payloads chain)) w
  le : w.opCount ≤ chain.length
  eq_iff : w.opCount = chain.length ↔ ∀ e ∈ chain, isCheckpoint e.2 = false

theorem RestoredAs.append {w : MaterializedView} (h : RestoredAs readPatchSet ws chain w)
    {e : GitOid × Operation} (hnot : isCheckpoint e.2 = false) :
    RestoredAs readPatchSet ws (e :: chain) (w.after readPatchSet [e.2.payload]) where
  replay := by
    rw [replayChain_cons_of_not hnot, h.replay, payloads_cons, OpPayload.readAll_append]
    rcases OpPayload.readAll readPatchSet (payloads chain) with err | _
    · rfl
    · change replaySingleOp readPatchSet w e.2 = _
      rw [replaySingleOp_eq, applyOperation_eq]
      change _ = Except.mapError _ (Except.map _ (OpPayload.readAll readPatchSet [e.2.payload]))
      rw [OpPayload.readAll]
      rcases e.2.payload.reads readPatchSet <;> rfl
  content := by
    rw [payloads_cons, MaterializedView.after_append]
    exact h.content.after _
  le := Nat.succ_le_succ h.le
  eq_iff := by
    have hcount : (w.after readPatchSet [e.2.payload]).opCount = w.opCount + 1 := rfl
    rw [hcount, List.length_cons, Nat.add_right_cancel_iff, h.eq_iff, List.forall_mem_cons]
    exact (and_iff_right hnot).symm

/-- The view that a checkpoint is made of was restored, or replayed in full. -/
theorem RestoredAs.current {w view : MaterializedView} (h : RestoredAs readPatchSet ws chain w)
    (hview : replayChain ws readPatchSet chain = .ok view ∨
      ((OpPayload.readAll readPatchSet (payloads chain)).map fun _ =>
        (MaterializedView.empty ws).after readPatchSet (payloads chain)) = .ok view) :
    (∃ u, OpPayload.readAll readPatchSet (payloads chain) = .ok u) ∧
      SameContent ((MaterializedView.empty ws).after readPatchSet (payloads chain)) view ∧
      view.opCount ≤ chain.length := by
  rcases hview with hview | hview
  · rw [h.replay, mapError_eq_ok] at hview
    rcases hread : OpPayload.readAll readPatchSet (payloads chain) with err | u
    · simp [hread, Except.map] at hview
    · rw [hread] at hview
      cases hview
      exact ⟨⟨u, rfl⟩, h.content, h.le⟩
  · rcases hread : OpPayload.readAll readPatchSet (payloads chain) with err | u
    · simp [hread, Except.map] at hview
    · rw [hread] at hview
      cases hview
      refine ⟨⟨u, rfl⟩, .refl _, ?_⟩
      simp [MaterializedView.after, MaterializedView.empty]

theorem RestoredAs.checkpoint {view : MaterializedView} {oid trigger parent : GitOid}
    {timestamp : String} (hread : ∃ u, OpPayload.readAll readPatchSet (payloads chain) = .ok u)
    (hcontent : SameContent ((MaterializedView.empty ws).after readPatchSet (payloads chain)) view)
    (hle : view.opCount ≤ chain.length) :
    RestoredAs readPatchSet ws ((oid, createCheckpointOp view trigger parent timestamp) :: chain)
      { view with annotations := view.annotations.filterKeys (· ≠ checkpointKey) } where
  replay := by
    obtain ⟨u, hu⟩ := hread
    rw [replayChain_cons_of_checkpoint (by simp), restore,
      extractCheckpoint_createCheckpointOp, payloads_cons, OpPayload.readAll_append, hu]
    simp only [CheckpointView.toView_fromView]
    rfl
  content := by
    rw [payloads_cons, MaterializedView.after_append]
    refine .trans ?_ (sameContent_filter view)
    exact (sameContent_checkpoint (by rfl)).trans hcontent
  le := Nat.le_succ_of_le hle
  eq_iff := by
    refine iff_of_false ?_ fun hall => ?_
    · change view.opCount ≠ chain.length + 1
      omega
    · simpa using hall _ List.mem_cons_self

/-- What is restored from the latest checkpoint of a chain. -/
theorem exists_restored {s : OpStore} {ids : List GitOid} (h : ChainFrom s ids chain)
    (hw : ∀ oid ∈ ids, Written readPatchSet ws s oid) :
    ∃ w, RestoredAs readPatchSet ws chain w := by
  induction h with
  | root =>
    refine ⟨.empty ws, rfl, .refl _, le_rfl, ?_⟩
    simp [MaterializedView.empty]
  | @cons oid op chain hop hchain ih =>
    cases hw oid (List.mem_singleton_self oid) with
    | append hop' hnot hparents =>
      rw [hop] at hop'
      obtain rfl := Option.some.inj hop'
      obtain ⟨w, hw⟩ := ih hparents
      exact ⟨_, hw.append hnot⟩
    | @checkpoint _ parent trigger view timestamp hop' hparent hview =>
      rw [hop] at hop'
      obtain rfl := Option.some.inj hop'
      have hparents : ∀ oid ∈ [parent], Written readPatchSet ws s oid := by
        intro oid hoid
        rwa [List.mem_singleton.mp hoid]
      obtain ⟨w, hw⟩ := ih hparents
      have hwalk : (headedBy s ws parent).walkChain ws none none = .ok chain :=
        walkChain_of_chain (readHead_headedBy _ _ _) hchain
      rw [IsCurrentView, materialize_of_walk hwalk, materializeFromCheckpoint_of_walk hwalk]
        at hview
      obtain ⟨hread, hcontent, hle⟩ := hw.current hview.symm
      exact ⟨_, .checkpoint hread hcontent hle⟩

end Chain

/-! ### The logs that the code writes -/

section Run

variable {readPatchSet : PatchSetReader} {ws : NamedWorkspace} {log log' : OpLog}

/-- The logs of a workspace that are built by appending operations, by writing checkpoints of the
current view, and by taking over what the same workspace wrote in another repository. -/
inductive LogRun (readPatchSet : PatchSetReader) (ws : NamedWorkspace) : OpLog → Prop
  | start {log : OpLog} (h : log.readHead ws = none) : LogRun readPatchSet ws log
  | append {log log' : OpLog} {op : Operation} {oid : GitOid}
      (hlog : LogRun readPatchSet ws log) (hnot : isCheckpoint op = false)
      (hparents : ∀ parent ∈ op.parentIds, Written readPatchSet ws log.store parent)
      (h : Returns OpLogOp.exec (appendOperation ws op (log.readHead ws)) log oid log') :
      LogRun readPatchSet ws log'
  | checkpoint {log log' : OpLog} {head trigger : GitOid} {view : MaterializedView}
      {interval : ℕ} {timestamp : String} {r : Option GitOid}
      (hlog : LogRun readPatchSet ws log) (hhead : log.readHead ws = some head)
      (hview : IsCurrentView readPatchSet ws log view)
      (h : Returns OpLogOp.exec (maybeWriteCheckpoint ws view trigger head interval timestamp)
        log r log') :
      LogRun readPatchSet ws log'
  | fetch {log : OpLog} {op : Operation} {oid : GitOid} {store : OpStore}
      (hlog : LogRun readPatchSet ws log) (h : log.store.Adds oid op store) :
      LogRun readPatchSet ws { log with store }
  | adopt {log : OpLog} {oid : GitOid} (hlog : LogRun readPatchSet ws log)
      (h : Written readPatchSet ws log.store oid) :
      LogRun readPatchSet ws { log with refs := log.refs.insert (workspaceHeadRef ws) oid }

theorem walkChain_congr (hstore : log.store = log'.store)
    (hhead : log.readHead ws = log'.readHead ws) :
    log.walkChain ws none none = log'.walkChain ws none none := by
  rw [OpLog.walkChain, OpLog.walkChain, hstore, hhead]

theorem walkChain_mono {head : GitOid} {s s' : OpStore}
    (hs : ∀ oid op, s.nodes.lookup oid = some op → s'.nodes.lookup oid = some op)
    {chain : List (GitOid × Operation)}
    (h : (headedBy s ws head).walkChain ws none none = .ok chain) :
    (headedBy s' ws head).walkChain ws none none = .ok chain := by
  rw [OpLog.walkChain, readHead_headedBy] at h ⊢
  exact OpStore.walk_mono hs h

/-- The view of a log that can be read depends on the operations that it reads. -/
theorem IsCurrentView.of_walk {view : MaterializedView}
    (hwalk : ∀ chain, log.walkChain ws none none = .ok chain →
      log'.walkChain ws none none = .ok chain)
    (h : IsCurrentView readPatchSet ws log view) : IsCurrentView readPatchSet ws log' view := by
  rcases h with h | h
  · obtain ⟨chain, hchain, hview⟩ := bind_eq_ok.mp h
    refine .inl (bind_eq_ok.mpr ⟨chain, ?_, hview⟩)
    rw [mapError_eq_ok] at hchain ⊢
    exact hwalk chain hchain
  · obtain ⟨chain, hchain, hview⟩ := bind_eq_ok.mp h
    refine .inr (bind_eq_ok.mpr ⟨chain, ?_, hview⟩)
    rw [mapError_eq_ok] at hchain ⊢
    exact hwalk chain hchain

/-- What was written stays so in a larger store. -/
theorem Written.mono {s s' : OpStore}
    (hs : ∀ oid op, s.nodes.lookup oid = some op → s'.nodes.lookup oid = some op) {oid : GitOid}
    (h : Written readPatchSet ws s oid) : Written readPatchSet ws s' oid := by
  induction h with
  | append hop hnot _ ih => exact .append (hs _ _ hop) hnot ih
  | checkpoint hop _ hview ih =>
    exact .checkpoint (hs _ _ hop) ih (hview.of_walk fun _ => walkChain_mono hs)

/-- The head of a log that the code wrote is an append or a checkpoint of the view before it. -/
theorem LogRun.written (h : LogRun readPatchSet ws log) :
    ∀ head, log.readHead ws = some head → Written readPatchSet ws log.store head := by
  induction h with
  | start h => simp [h]
  | @append log log' op oid hlog hnot hparents h ih =>
    obtain ⟨store, hadds, -, rfl⟩ := returns_appendOperation.mp h
    intro head hhead
    obtain rfl : oid = head := by simpa [OpLog.readHead] using hhead
    have hmono : ∀ parent ∈ op.parentIds, Written readPatchSet ws store parent :=
      fun parent hparent => (hparents parent hparent).mono fun _ _ => hadds.lookup
    exact .append hadds.lookup_self hnot hmono
  | @checkpoint log log' head trigger view interval timestamp r hlog hhead hview h ih =>
    rw [maybeWriteCheckpoint] at h
    split_ifs at h with hdue
    · obtain ⟨oid, log₁, happend, hdone⟩ := returns_bind.mp h
      obtain ⟨rfl, rfl⟩ := returns_pure.mp hdone
      obtain ⟨store, hadds, -, rfl⟩ := returns_appendOperation.mp happend
      intro head' hhead'
      obtain rfl : oid = head' := by simpa [OpLog.readHead] using hhead'
      have hhere : IsCurrentView readPatchSet ws (headedBy log.store ws head) view := by
        have hwalk : log.walkChain ws none none =
            (headedBy log.store ws head).walkChain ws none none :=
          walkChain_congr rfl (by rw [hhead, readHead_headedBy])
        exact hview.of_walk fun chain hchain => hwalk ▸ hchain
      refine .checkpoint hadds.lookup_self ((ih head hhead).mono fun _ _ => hadds.lookup) ?_
      exact hhere.of_walk fun _ => walkChain_mono fun _ _ => hadds.lookup
    · obtain ⟨-, rfl⟩ := returns_pure.mp h
      exact ih
  | fetch _ h ih => exact fun head hhead => (ih head hhead).mono fun _ _ => h.lookup
  | @adopt log oid _ h _ =>
    intro head hhead
    obtain rfl : oid = head := by simpa [OpLog.readHead] using hhead
    exact h

/-- Both replays return the same view, if one of them returns any. -/
def ReplaysAgree (readPatchSet : PatchSetReader) (ws : NamedWorkspace) (log : OpLog) : Prop :=
  (∀ v, materialize log ws readPatchSet = .ok v →
    ∃ w, materializeFromCheckpoint log ws readPatchSet = .ok w ∧ SameView v w) ∧
  ∀ w, materializeFromCheckpoint log ws readPatchSet = .ok w →
    ∃ v, materialize log ws readPatchSet = .ok v

/-- There is a checkpoint in the log. -/
def HasCheckpoint (ws : NamedWorkspace) (log : OpLog) : Prop :=
  ∃ chain, log.walkChain ws none none = .ok chain ∧ ∃ e ∈ chain, isCheckpoint e.2 = true

/-- The log has a snapshot whose patch set cannot be read. -/
def HasUnreadable (readPatchSet : PatchSetReader) (ws : NamedWorkspace) (log : OpLog) : Prop :=
  ∃ chain, log.walkChain ws none none = .ok chain ∧ ∃ e ∈ chain, ∃ oid,
    e.2.payload = .snapshot oid ∧ ∃ err, readPatchSet oid = .error err

/-- Each operation of the log names at most one parent. -/
def IsLinear (ws : NamedWorkspace) (log : OpLog) : Prop :=
  ∀ head, log.readHead ws = some head → ∃ chain, ChainFrom log.store [head] chain

theorem readAll_eq_error_iff {ps : List OpPayload} :
    (∃ err, OpPayload.readAll readPatchSet ps = .error err) ↔
      ∃ payload ∈ ps, ∃ oid, payload = .snapshot oid ∧ ∃ err, readPatchSet oid = .error err := by
  have hreads (payload : OpPayload) : (∃ err, payload.reads readPatchSet = .error err) ↔
      ∃ oid, payload = .snapshot oid ∧ ∃ err, readPatchSet oid = .error err := by
    rcases payload with _ | _ | oid | _ | _ | _ | _ | _ | _ | _ | _ <;>
      simp [OpPayload.reads]
    rcases readPatchSet oid <;> simp [Except.map]
  induction ps with
  | nil => simp [OpPayload.readAll]
  | cons payload ps ih =>
    simp only [List.mem_cons, exists_eq_or_imp]
    refine Iff.trans ?_ (or_congr (hreads payload) ih)
    rw [OpPayload.readAll]
    rcases payload.reads readPatchSet with err | _
    · exact ⟨fun _ => .inl ⟨err, rfl⟩, fun _ => ⟨err, rfl⟩⟩
    · simp [bind, Except.bind]

/-- The full replay fails if a snapshot cannot be read. -/
theorem hasUnreadable_of_readAll {chain : List (GitOid × Operation)} {err : ViewError}
    (hwalk : log.walkChain ws none none = .ok chain)
    (h : OpPayload.readAll readPatchSet (payloads chain) = .error err) :
    HasUnreadable readPatchSet ws log := by
  obtain ⟨payload, hmem, oid, rfl, herr⟩ := readAll_eq_error_iff.mp ⟨err, h⟩
  obtain ⟨e, he, heq⟩ := List.mem_map.mp hmem
  exact ⟨chain, hwalk, e, List.mem_reverse.mp he, oid, heq, herr⟩

theorem readAll_of_hasUnreadable {chain : List (GitOid × Operation)}
    (hwalk : log.walkChain ws none none = .ok chain) (h : HasUnreadable readPatchSet ws log) :
    ∃ err, OpPayload.readAll readPatchSet (payloads chain) = .error err := by
  obtain ⟨chain', hwalk', e, he, oid, hoid, herr⟩ := h
  rw [hwalk] at hwalk'
  obtain rfl := Except.ok.inj hwalk'
  exact readAll_eq_error_iff.mpr
    ⟨_, List.mem_map.mpr ⟨e, List.mem_reverse.mpr he, rfl⟩, oid, hoid, herr⟩

theorem not_returns_of_walk (readPatchSet : PatchSetReader) {err : OpLogReadError}
    (h : log.walkChain ws none none = .error err) :
    (∀ v, materialize log ws readPatchSet ≠ .ok v) ∧
      ∀ w, materializeFromCheckpoint log ws readPatchSet ≠ .ok w := by
  have hne (chain : List (GitOid × Operation)) : log.walkChain ws none none ≠ .ok chain := by
    rw [h]
    simp
  constructor
  · intro v hv
    obtain ⟨chain, hchain, -⟩ := bind_eq_ok.mp hv
    exact hne chain (mapError_eq_ok.mp hchain)
  · intro w hw
    obtain ⟨chain, hchain, -⟩ := bind_eq_ok.mp hw
    exact hne chain (mapError_eq_ok.mp hchain)

/-- What is restored from the latest checkpoint of a log. -/
theorem LogRun.exists_restored (hlog : LogRun readPatchSet ws log) (hlinear : IsLinear ws log)
    {chain : List (GitOid × Operation)} (hwalk : log.walkChain ws none none = .ok chain) :
    ∃ w, RestoredAs readPatchSet ws chain w := by
  rcases hhead : log.readHead ws with _ | head
  · simp [OpLog.walkChain, hhead] at hwalk
  · obtain ⟨chain', hchain⟩ := hlinear head hhead
    have heq := walkChain_of_chain hhead hchain
    rw [hwalk] at heq
    obtain rfl := Except.ok.inj heq
    refine Oplog.exists_restored hchain fun oid hoid => ?_
    exact hlog.written oid (by rw [hhead, List.mem_singleton.mp hoid])

/-- A log without checkpoints is replayed in full both ways. -/
theorem replaysAgree_of_no_checkpoint (h : ¬ HasCheckpoint ws log) :
    ReplaysAgree readPatchSet ws log := by
  rcases hwalk : log.walkChain ws none none with err | chain
  · have hnone := not_returns_of_walk readPatchSet hwalk
    exact ⟨fun v hv => absurd hv (hnone.1 v), fun w hw => absurd hw (hnone.2 w)⟩
  · have hnot : ∀ e ∈ chain, isCheckpoint e.2 = false := by
      intro e he
      by_contra hcp
      exact h ⟨chain, hwalk, e, he, by simpa using hcp⟩
    rw [ReplaysAgree, materialize_of_walk hwalk, materializeFromCheckpoint_of_walk hwalk,
      replayChain_of_no_checkpoint hnot]
    refine ⟨fun v hv => ⟨v, ?_, .refl v, rfl⟩, fun w hw => ⟨w, ?_⟩⟩
    · rwa [mapError_eq_ok]
    · rwa [mapError_eq_ok] at hw

/-- The replay from a checkpoint counts fewer operations. -/
theorem not_replaysAgree (hlog : LogRun readPatchSet ws log) (hlinear : IsLinear ws log)
    {chain : List (GitOid × Operation)} (hwalk : log.walkChain ws none none = .ok chain)
    {e : GitOid × Operation} (he : e ∈ chain) (hcp : isCheckpoint e.2 = true)
    (hread : OpPayload.readAll readPatchSet (payloads chain) = .ok ()) :
    ¬ ReplaysAgree readPatchSet ws log := by
  intro hagree
  obtain ⟨w, hw⟩ := hlog.exists_restored hlinear hwalk
  rw [ReplaysAgree, materialize_of_walk hwalk, materializeFromCheckpoint_of_walk hwalk,
    hw.replay, hread] at hagree
  obtain ⟨w', hw', -, hcount⟩ := hagree.1 _ rfl
  obtain rfl := Except.ok.inj hw'
  have hlength : ((MaterializedView.empty ws).after readPatchSet (payloads chain)).opCount =
      chain.length := by
    simp [MaterializedView.after, MaterializedView.empty]
  have hfalse := hw.eq_iff.mp (hcount.symm.trans hlength) e he
  rw [hcp] at hfalse
  exact absurd hfalse (by simp)

/-- The two replays of a log return the same view if there is no checkpoint in it. In a log where
each operation names at most one parent, they do so only if there is none or if a snapshot cannot
be read, and then neither returns a view: a checkpoint counts the operations before it, and the
replay from it begins with the operation after it. -/
theorem replaysAgree_iff (hlog : LogRun readPatchSet ws log) :
    (¬ HasCheckpoint ws log → ReplaysAgree readPatchSet ws log) ∧
      (IsLinear ws log → (ReplaysAgree readPatchSet ws log ↔
        ¬ HasCheckpoint ws log ∨ HasUnreadable readPatchSet ws log)) := by
  refine ⟨replaysAgree_of_no_checkpoint, fun hlinear => ?_⟩
  constructor
  · intro hagree
    by_contra hnot
    push Not at hnot
    obtain ⟨⟨chain, hwalk, e, he, hcp⟩, hreadable⟩ := hnot
    rcases hread : OpPayload.readAll readPatchSet (payloads chain) with err | u
    · exact hreadable (hasUnreadable_of_readAll hwalk hread)
    · exact not_replaysAgree hlog hlinear hwalk he hcp hread hagree
  · rintro (hnot | hunread)
    · exact replaysAgree_of_no_checkpoint hnot
    · obtain ⟨chain, hwalk, -⟩ := id hunread
      obtain ⟨err, hread⟩ := readAll_of_hasUnreadable hwalk hunread
      obtain ⟨w, hw⟩ := hlog.exists_restored hlinear hwalk
      rw [ReplaysAgree, materialize_of_walk hwalk, materializeFromCheckpoint_of_walk hwalk,
        hw.replay, hread]
      simp [Except.map, Except.mapError]

end Run

/-! ### A small log -/

def sampleWs : NamedWorkspace := ⟨⟨"agent-1"⟩, by decide⟩

def sampleOid (n : ℕ) : GitOid := ⟨BitVec.ofNat 160 n⟩

/-- A reader that finds no patch set. -/
def noPatchSets : PatchSetReader := fun oid => .error (.patchSetRead oid.asStr "not found")

def sampleCreate : Operation := ⟨[], sampleWs, "2026-02-19T12:00:00Z", .create ⟨sampleOid 10⟩⟩

def sampleDescribe : Operation :=
  ⟨[sampleOid 1], sampleWs, "2026-02-19T12:01:00Z", .describe "step 2"⟩

/-- A workspace is created. -/
def createdLog : OpLog :=
  OpLog.appended ⟨NodeStore.empty, ∅⟩ sampleWs (sampleOid 1) sampleCreate (by decide)
    (by simp [sampleCreate])

/-- It is described. -/
def describedLog : OpLog :=
  createdLog.appended sampleWs (sampleOid 2) sampleDescribe (by decide) (by decide)

/-- The view after both. -/
def describedView : MaterializedView :=
  (MaterializedView.empty sampleWs).after noPatchSets [sampleCreate.payload, sampleDescribe.payload]

def sampleCheckpoint : Operation :=
  createCheckpointOp describedView (sampleOid 2) (sampleOid 2) "2026-02-19T12:02:00Z"

theorem mem_of_sampleCheckpoint :
    ∀ parent ∈ sampleCheckpoint.parentIds, parent ∈ describedLog.store.nodes := by
  intro parent hparent
  rw [List.mem_singleton.mp hparent]
  exact Finmap.mem_insert.mpr (.inl rfl)

/-- A checkpoint follows the second operation. -/
def checkpointedLog : OpLog :=
  describedLog.appended sampleWs (sampleOid 3) sampleCheckpoint (by decide) mem_of_sampleCheckpoint

theorem describedLog_chain : ChainFrom describedLog.store [sampleOid 2]
    [(sampleOid 2, sampleDescribe), (sampleOid 1, sampleCreate)] :=
  .cons rfl (.cons rfl .root)

theorem describedLog_walk : describedLog.walkChain sampleWs none none =
    .ok [(sampleOid 2, sampleDescribe), (sampleOid 1, sampleCreate)] :=
  walkChain_of_chain OpLog.readHead_appended describedLog_chain

theorem createdLog_run : LogRun noPatchSets sampleWs createdLog := by
  have hnone : (OpLog.mk NodeStore.empty ∅).readHead sampleWs = none := rfl
  have happend : Returns OpLogOp.exec (appendOperation sampleWs sampleCreate none)
      (OpLog.mk NodeStore.empty ∅) (sampleOid 1) createdLog :=
    returns_appended fun head h => absurd h (by rw [hnone]; simp)
  exact .append (.start hnone) rfl (by simp [sampleCreate]) happend

theorem describedLog_run : LogRun noPatchSets sampleWs describedLog := by
  have hhead : createdLog.readHead sampleWs = some (sampleOid 1) := OpLog.readHead_appended
  have happend : Returns OpLogOp.exec
      (appendOperation sampleWs sampleDescribe (createdLog.readHead sampleWs)) createdLog
      (sampleOid 2) describedLog := by
    refine returns_appended fun head h => ?_
    rw [hhead] at h
    cases h
    decide
  refine .append createdLog_run rfl (fun parent hparent => ?_) happend
  rw [List.mem_singleton.mp hparent]
  exact createdLog_run.written _ hhead

theorem checkpointedLog_chain : ChainFrom checkpointedLog.store [sampleOid 3]
    [(sampleOid 3, sampleCheckpoint), (sampleOid 2, sampleDescribe),
      (sampleOid 1, sampleCreate)] :=
  .cons rfl (.cons rfl (.cons rfl .root))

theorem checkpointedLog_run : LogRun noPatchSets sampleWs checkpointedLog := by
  have hhead : describedLog.readHead sampleWs = some (sampleOid 2) := OpLog.readHead_appended
  have hview : IsCurrentView noPatchSets sampleWs describedLog describedView := by
    refine .inl ?_
    rw [materialize_of_walk describedLog_walk]
    rfl
  have happend : Returns OpLogOp.exec
      (appendOperation sampleWs sampleCheckpoint (describedLog.readHead sampleWs)) describedLog
      (sampleOid 3) checkpointedLog := by
    refine returns_appended fun head h => ?_
    rw [hhead] at h
    cases h
    decide
  have hwrite : Returns OpLogOp.exec (maybeWriteCheckpoint sampleWs describedView (sampleOid 2)
      (sampleOid 2) 2 "2026-02-19T12:02:00Z") describedLog (some (sampleOid 3))
      checkpointedLog := by
    rw [maybeWriteCheckpoint, if_pos (by decide)]
    rw [hhead] at happend
    exact returns_bind.mpr ⟨_, _, happend, returns_pure.mpr ⟨rfl, rfl⟩⟩
  exact .checkpoint describedLog_run hhead hview hwrite

theorem isLinear_describedLog : IsLinear sampleWs describedLog := by
  intro head hhead
  rw [describedLog, OpLog.readHead_appended] at hhead
  cases hhead
  exact ⟨_, describedLog_chain⟩

theorem isLinear_checkpointedLog : IsLinear sampleWs checkpointedLog := by
  intro head hhead
  rw [checkpointedLog, OpLog.readHead_appended] at hhead
  cases hhead
  exact ⟨_, checkpointedLog_chain⟩

theorem replaysAgree_describedLog : ReplaysAgree noPatchSets sampleWs describedLog := by
  refine ((replaysAgree_iff describedLog_run).2 isLinear_describedLog).mpr (.inl ?_)
  rintro ⟨chain, hwalk, e, he, hcp⟩
  rw [describedLog_walk] at hwalk
  cases hwalk
  revert hcp
  revert e
  simp [isCheckpoint, OpPayload.isCheckpoint, sampleDescribe, sampleCreate]

/-- The replay from the checkpoint of a log of three operations counts two of them. -/
theorem replays_count_differently : ∃ log, LogRun noPatchSets sampleWs log ∧
    IsLinear sampleWs log ∧ ¬ ReplaysAgree noPatchSets sampleWs log := by
  refine ⟨checkpointedLog, checkpointedLog_run, isLinear_checkpointedLog, ?_⟩
  refine not_replaysAgree checkpointedLog_run isLinear_checkpointedLog
    (walkChain_of_chain OpLog.readHead_appended checkpointedLog_chain) List.mem_cons_self ?_ rfl
  exact isCheckpoint_createCheckpointOp _ _ _ _

end Maw.Oplog
