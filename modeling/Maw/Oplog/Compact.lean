import Maw.Oplog.CheckpointReplay

/-!
# Compacting a log

Compaction replaces the operations before the latest checkpoint by one that creates the
workspace, and links the checkpoint and the operations after it to that. The replay from the
checkpoint yields what it did. The full replay no longer sees the operations before the
checkpoint, and it does not read the data of the checkpoint.

## Main definitions

* `compact` — the compaction, blob by blob.
* `CompactionKeeps` — what a compaction should keep.
* `NothingForgotten` — the fields that the removed operations set are set again.

## Main results

* `returns_compact` — the log after a compaction.
* `compactionKeeps_iff` — a compaction keeps the full replay exactly if nothing is forgotten.
-/

open Interleaved

namespace Maw.Oplog

open LastWrite ExceptRun

structure CompactionResult where
  newHead : GitOid
  opsBefore : ℕ
  opsAfter : ℕ
  deriving DecidableEq, Repr

/-- Write operations again, oldest first, each on top of the one before it. -/
def relink : GitOid → List (GitOid × Operation) → OpLogProg GitOid
  | prevOid, [] => return prevOid
  | prevOid, (_, op) :: post => do
    let newOid ← attempt (OpLogOp.writeOperationBlob { op with parentIds := [prevOid] })
    relink newOid post

/-- Replace the operations before a checkpoint by one that creates the workspace. -/
def rewriteLog (ws : NamedWorkspace) (head : GitOid) (cpOp : Operation) (epoch : EpochId)
    (post : List (GitOid × Operation)) : OpLogProg GitOid := do
  let syntheticCreate : Operation :=
    { parentIds := [], workspaceId := ws, timestamp := cpOp.timestamp, payload := .create epoch }
  let createOid ← attempt (OpLogOp.writeOperationBlob syntheticCreate)
  let cpNewOid ← attempt (OpLogOp.writeOperationBlob { cpOp with parentIds := [createOid] })
  let newHead ← relink cpNewOid post.reverse
  attempt (OpLogOp.writeRefCas ws head newHead)
  return newHead

/-- The epoch that a checkpoint was made at. -/
def checkpointEpoch (cpOp : Operation) : Except CheckpointError EpochId :=
  match extractCheckpoint cpOp with
  | none => .error (.invalidData .unparseable)
  | some cpData =>
    match cpData.view.epoch with
    | none => .error (.invalidData .noEpoch)
    | some epoch =>
      match EpochId.new epoch with
      | none => .error (.invalidData (.epochInCheckpoint epoch))
      | some epochId => .ok epochId

/-- Compact the log of a workspace. -/
def compact (ws : NamedWorkspace) : OpLogProg CompactionResult := do
  let chain ← attempt (OpLogOp.walkChain ws)
  match chain, fromCheckpoint chain with
  | [], _ => throw (.opLogRead (.noHead ws))
  | _, [] => throw (.noCheckpoint ws)
  -- Nothing comes before the checkpoint.
  | (head, _) :: _, [_] => return ⟨head, chain.length, chain.length⟩
  | (head, _) :: _, (_, cpOp) :: _ :: _ =>
    match checkpointEpoch cpOp with
    | .error e => throw e
    | .ok epoch => do
      let newHead ← rewriteLog ws head cpOp epoch (postCheckpoint chain)
      return ⟨newHead, chain.length, (postCheckpoint chain).length + 2⟩

/-- An operation without its place in the log. -/
def Operation.unlinked (op : Operation) : Operation := { op with parentIds := [] }

section Compact

variable {ws : NamedWorkspace} {log log' : OpLog} {readPatchSet : PatchSetReader}
  {chain : List (GitOid × Operation)}

theorem IsLinear.nodup (h : IsLinear ws log) (hwalk : log.walkChain ws none none = .ok chain) :
    (chain.map Prod.fst).Nodup := by
  rcases hhead : log.readHead ws with _ | head
  · simp [OpLog.walkChain, hhead] at hwalk
  · obtain ⟨chain', hchain⟩ := h head hhead
    have heq := walkChain_of_chain hhead hchain
    rw [hwalk] at heq
    obtain rfl := Except.ok.inj heq
    exact hchain.nodup

/-- What a blob that is written leaves as it was, and where it is stored. -/
theorem returns_writeOperationBlob {op : Operation} {oid : GitOid} :
    Returns OpLogOp.exec (attempt (OpLogOp.writeOperationBlob op)) log oid log' ↔
      ∃ store, log.store.Adds oid op store ∧ log' = { log with store } := by
  rw [returns_attempt]
  constructor
  · rintro (⟨⟨e, he⟩, -⟩ | ⟨oid', store, hadds, hoid, rfl⟩)
    · cases he
    · cases hoid
      exact ⟨store, hadds, rfl⟩
  · rintro ⟨store, hadds, rfl⟩
    exact .inr ⟨oid, store, hadds, rfl, rfl⟩

/-- The operations that are written again form a chain on what they are put on. -/
theorem returns_relink {post : List (GitOid × Operation)} {prevOid newHead : GitOid}
    (hchain : ChainFrom log.store [prevOid] chain)
    (h : Returns OpLogOp.exec (relink prevOid post) log newHead log') :
    log'.refs = log.refs ∧ ∃ post', ChainFrom log'.store [newHead] (post' ++ chain) ∧
      post'.reverse.map (fun e => e.2.unlinked) = post.map fun e => e.2.unlinked := by
  induction post generalizing prevOid log chain with
  | nil =>
    obtain ⟨rfl, rfl⟩ := returns_pure.mp h
    exact ⟨rfl, [], hchain, rfl⟩
  | cons e post ih =>
    obtain ⟨newOid, log₁, hwrite, hrest⟩ := returns_bind.mp h
    obtain ⟨store, hadds, rfl⟩ := returns_writeOperationBlob.mp hwrite
    have hchain₁ : ChainFrom store [newOid]
        ((newOid, { e.2 with parentIds := [prevOid] }) :: chain) :=
      .cons hadds.lookup_self (hchain.adds hadds)
    obtain ⟨hrefs, post', hpost', hmap⟩ := ih hchain₁ hrest
    refine ⟨hrefs, post' ++ [(newOid, { e.2 with parentIds := [prevOid] })], ?_, ?_⟩
    · rwa [List.append_assoc]
    · rw [List.reverse_append, List.map_append, hmap]
      rfl

/-- The log after its operations before a checkpoint were replaced. -/
theorem returns_rewriteLog {head newHead : GitOid} {cpOp : Operation} {epoch : EpochId}
    {post : List (GitOid × Operation)}
    (h : Returns OpLogOp.exec (rewriteLog ws head cpOp epoch post) log newHead log') :
    log'.readHead ws = some newHead ∧ ∃ post' cp create,
      ChainFrom log'.store [newHead] (post' ++ [cp, create]) ∧
      post'.map (fun e => e.2.unlinked) = post.map (fun e => e.2.unlinked) ∧
      cp.2.payload = cpOp.payload ∧ create.2.payload = .create epoch := by
  obtain ⟨createOid, log₁, hcreate, h⟩ := returns_bind.mp h
  obtain ⟨store₁, hadds₁, rfl⟩ := returns_writeOperationBlob.mp hcreate
  obtain ⟨cpNewOid, log₂, hcp, h⟩ := returns_bind.mp h
  obtain ⟨store₂, hadds₂, rfl⟩ := returns_writeOperationBlob.mp hcp
  obtain ⟨newHead', log₃, hrelink, h⟩ := returns_bind.mp h
  obtain ⟨u, log₄, hcas, hdone⟩ := returns_bind.mp h
  obtain ⟨rfl, rfl⟩ := returns_pure.mp hdone
  obtain ⟨-, rfl⟩ := exec_writeRefCas.mp (returns_attempt.mp hcas)
  have hchain : ChainFrom store₂ [cpNewOid] [(cpNewOid, { cpOp with parentIds := [createOid] }),
      (createOid, ⟨[], ws, cpOp.timestamp, .create epoch⟩)] :=
    .cons hadds₂.lookup_self (.cons (hadds₂.lookup hadds₁.lookup_self) .root)
  obtain ⟨-, post', hpost', hmap⟩ := returns_relink hchain hrelink
  refine ⟨Finmap.lookup_insert _, post', _, _, hpost', ?_, rfl, rfl⟩
  have hrev := congrArg List.reverse hmap
  rwa [← List.map_reverse, ← List.map_reverse, List.reverse_reverse, List.reverse_reverse] at hrev

theorem isCheckpoint_of_fromCheckpoint {cp : GitOid × Operation} {pre : List (GitOid × Operation)}
    (h : fromCheckpoint chain = cp :: pre) : isCheckpoint cp.2 = true := by
  induction chain with
  | nil => simp [fromCheckpoint] at h
  | cons e chain ih =>
    rcases he : isCheckpoint e.2 with _ | _
    · rw [fromCheckpoint_cons_of_not he] at h
      exact ih h
    · rw [fromCheckpoint_cons_of_checkpoint he] at h
      cases h
      exact he

/-- A chain is the operations after its latest checkpoint, the checkpoint and those before it. -/
theorem payloads_of_fromCheckpoint {cp : GitOid × Operation} {pre : List (GitOid × Operation)}
    (h : fromCheckpoint chain = cp :: pre) :
    payloads chain = payloads pre ++ cp.2.payload :: payloads (postCheckpoint chain) := by
  have hsplit : postCheckpoint chain ++ fromCheckpoint chain = chain :=
    List.takeWhile_append_dropWhile
  rw [h] at hsplit
  conv_lhs => rw [← hsplit]
  simp [payloads]

/-- The latest checkpoint of a chain that was put together. -/
theorem fromCheckpoint_append {post rest : List (GitOid × Operation)} {cp : GitOid × Operation}
    (hpost : ∀ e ∈ post, isCheckpoint e.2 = false) (hcp : isCheckpoint cp.2 = true) :
    postCheckpoint (post ++ cp :: rest) = post ∧
      fromCheckpoint (post ++ cp :: rest) = cp :: rest := by
  induction post with
  | nil =>
    exact ⟨postCheckpoint_cons_of_checkpoint hcp, fromCheckpoint_cons_of_checkpoint hcp⟩
  | cons e post ih =>
    have he := hpost e List.mem_cons_self
    obtain ⟨hih, hih'⟩ := ih fun e' he' => hpost e' (List.mem_cons_of_mem _ he')
    rw [List.cons_append, postCheckpoint_cons_of_not he, fromCheckpoint_cons_of_not he, hih, hih']
    exact ⟨rfl, rfl⟩

/-- The log after what came before its checkpoint was replaced. -/
structure Compacted (ws : NamedWorkspace) (log' : OpLog) (cp : GitOid × Operation)
    (post chain' : List (GitOid × Operation)) (epoch : EpochId) : Prop where
  walk' : log'.walkChain ws none none = .ok chain'
  nodup : (chain'.map Prod.fst).Nodup
  operations : (postCheckpoint chain').map (fun e => e.2.unlinked) =
    post.map fun e => e.2.unlinked
  payloads_eq : payloads chain' = .create epoch :: cp.2.payload :: payloads post
  replay : ∀ readPatchSet, replayChain ws readPatchSet chain' = restore readPatchSet cp.2 post

theorem compacted {cp cp' create' : GitOid × Operation}
    {pre chain' post' : List (GitOid × Operation)} {epoch : EpochId}
    (hfrom : fromCheckpoint chain = cp :: pre) (hwalk' : log'.walkChain ws none none = .ok chain')
    (hnodup : (chain'.map Prod.fst).Nodup) (hchain' : chain' = post' ++ [cp', create'])
    (hmap : post'.map (fun e => e.2.unlinked) =
      (postCheckpoint chain).map fun e => e.2.unlinked)
    (hcp' : cp'.2.payload = cp.2.payload) (hcreate' : create'.2.payload = .create epoch) :
    Compacted ws log' cp (postCheckpoint chain) chain' epoch := by
  have hmap' : post'.map (fun e => e.2.payload) =
      (postCheckpoint chain).map fun e => e.2.payload := by
    have h := congrArg (List.map Operation.payload) hmap
    rwa [List.map_map, List.map_map] at h
  have hcheckpoint : isCheckpoint cp'.2 = true := by
    rw [isCheckpoint, hcp']
    exact isCheckpoint_of_fromCheckpoint hfrom
  have hpost : ∀ e ∈ post', isCheckpoint e.2 = false := by
    intro e he
    have hmem : e.2.payload ∈ (postCheckpoint chain).map fun e => e.2.payload :=
      hmap' ▸ List.mem_map_of_mem he
    obtain ⟨e', he', heq⟩ := List.mem_map.mp hmem
    rw [isCheckpoint, ← heq]
    exact not_isCheckpoint_of_mem e' he'
  have hrev : post'.reverse.map (fun e => e.2.payload) =
      (postCheckpoint chain).reverse.map fun e => e.2.payload := by
    rw [List.map_reverse, hmap', List.map_reverse]
  have happend : postCheckpoint (post' ++ [cp', create']) = post' ∧
      fromCheckpoint (post' ++ [cp', create']) = [cp', create'] :=
    fromCheckpoint_append hpost hcheckpoint
  rw [← hchain'] at happend
  obtain ⟨hpost', hfrom'⟩ := happend
  refine ⟨hwalk', hnodup, by rw [hpost', hmap], ?_, fun readPatchSet => ?_⟩
  · rw [payloads_of_fromCheckpoint hfrom', hpost', hcp']
    change [create'.2.payload] ++ cp.2.payload :: payloads post' = _
    rw [hcreate', payloads, hrev]
    rfl
  · rw [replayChain, hfrom', hpost']
    exact restore_congr hcp' not_isCheckpoint_of_mem hpost hrev

/-- A log with a checkpoint that a compaction returned for: either nothing came before the
checkpoint and nothing changed, or what came before it is now one operation. -/
theorem returns_compact {result : CompactionResult} (hwalk : log.walkChain ws none none = .ok chain)
    (h : Returns OpLogOp.exec (compact ws) log result log') :
    ∃ cp pre, fromCheckpoint chain = cp :: pre ∧
      ((pre = [] ∧ log' = log) ∨ ∃ epoch chain', pre ≠ [] ∧ checkpointEpoch cp.2 = .ok epoch ∧
        Compacted ws log' cp (postCheckpoint chain) chain' epoch) := by
  obtain ⟨chain₁, log₁, hread, h⟩ := returns_bind.mp h
  obtain ⟨rfl, hread | ⟨e, he⟩⟩ := returns_attempt.mp hread
  · rw [hwalk] at hread
    cases hread
    rcases chain with _ | ⟨e, rest⟩
    · exact absurd rfl (OpLog.ne_nil_of_walkChain hwalk)
    rcases hfrom : fromCheckpoint (e :: rest) with _ | ⟨cp, _ | ⟨before, pre⟩⟩
    · simp only [hfrom] at h
      exact absurd h not_returns_throw
    · simp only [hfrom] at h
      obtain ⟨-, rfl⟩ := returns_pure.mp h
      exact ⟨cp, [], rfl, .inl ⟨rfl, rfl⟩⟩
    · simp only [hfrom] at h
      rcases hepoch : checkpointEpoch cp.2 with err | epoch
      · simp only [hepoch] at h
        exact absurd h not_returns_throw
      · simp only [hepoch] at h
        obtain ⟨newHead, log₂, hrewrite, hdone⟩ := returns_bind.mp h
        obtain ⟨-, rfl⟩ := returns_pure.mp hdone
        obtain ⟨hhead, post', cp', create', hchain, hmap, hcp, hcreate⟩ :=
          returns_rewriteLog hrewrite
        have hcompacted := compacted hfrom (walkChain_of_chain hhead hchain) hchain.nodup rfl hmap
          hcp hcreate
        exact ⟨cp, before :: pre, rfl, .inr ⟨epoch, _, by simp, hepoch, hcompacted⟩⟩
  · cases he

/-! ### What a compaction keeps -/

/-- Two views agree, but for the number of operations that were replayed. -/
def SameRecord (v w : MaterializedView) : Prop := w = { v with opCount := w.opCount }

/-- A compaction keeps both replays and the operations after the checkpoint. -/
structure CompactionKeeps (readPatchSet : PatchSetReader) (ws : NamedWorkspace)
    (log log' : OpLog) : Prop where
  full : ∀ v, materialize log ws readPatchSet = .ok v →
    ∃ w, materialize log' ws readPatchSet = .ok w ∧ SameRecord v w
  restored : ∀ v, materializeFromCheckpoint log ws readPatchSet = .ok v →
    ∃ w, materializeFromCheckpoint log' ws readPatchSet = .ok w ∧ SameRecord v w
  operations : ∀ chain, log.walkChain ws none none = .ok chain →
    ∃ chain', log'.walkChain ws none none = .ok chain' ∧ (chain'.map Prod.fst).Nodup ∧
      (postCheckpoint chain').map (fun e => e.2.unlinked) =
        (postCheckpoint chain).map fun e => e.2.unlinked

/-- What the operations before a checkpoint set and the checkpoint's epoch does not give is set
again after it. -/
structure NothingForgotten (epoch : EpochId) (pre post : List OpPayload) : Prop where
  epoch : (∃ p ∈ post, p.epochWrite ≠ none) ∨ lastWrite OpPayload.epochWrite none pre = some epoch
  patchSet : (∃ p ∈ post, p.patchSetOidWrite ≠ none) ∨
    lastWrite OpPayload.patchSetOidWrite none pre = none
  description : (∃ p ∈ post, p.descriptionWrite ≠ none) ∨ ∀ p ∈ pre, p.descriptionWrite = none
  isDestroyed : (∃ p ∈ post, p.destroyedWrite ≠ none) ∨
    lastWrite OpPayload.destroyedWrite false pre = false
  annotations : ∀ key, key ≠ checkpointKey →
    (∃ p ∈ post, p.annotationWrite key ≠ none) ∨ ∀ p ∈ pre, p.annotationWrite key = none

/-- A checkpoint writes its own record and nothing else. -/
theorem exists_data_of_checkpoint {payload : OpPayload} (h : payload.isCheckpoint = true) :
    ∃ data, payload = .annotate checkpointKey data := by
  rcases payload with _ | _ | _ | _ | _ | _ | _ | _ | _ | ⟨key, data⟩ | _
  case annotate =>
    have hkey : key = checkpointKey := by simpa [OpPayload.isCheckpoint] using h
    exact ⟨data, by rw [hkey]⟩
  all_goals simp [OpPayload.isCheckpoint] at h

theorem sameRecord_iff {v w : MaterializedView} :
    SameRecord v w ↔ w.workspaceId = v.workspaceId ∧ w.epoch = v.epoch ∧ w.patchSet = v.patchSet ∧
      w.patchSetOid = v.patchSetOid ∧ w.description = v.description ∧
      (∀ key, w.annotations.lookup key = v.annotations.lookup key) ∧
      w.isDestroyed = v.isDestroyed := by
  constructor
  · intro h
    rw [SameRecord] at h
    rw [h]
    exact ⟨rfl, rfl, rfl, rfl, rfl, fun _ => rfl, rfl⟩
  · rintro ⟨hws, hepoch, hps, hoid, hdesc, hann, hdestroyed⟩
    obtain ⟨⟩ := w
    simp only at hws hepoch hps hoid hdesc hann hdestroyed
    rw [SameRecord, hws, hepoch, hps, hoid, hdesc, hdestroyed, Finmap.ext_lookup hann]

/-- The full replays of the operations with and without those before the checkpoint agree exactly
if nothing is forgotten. -/
theorem sameRecord_after_iff {epoch : EpochId} {cp : OpPayload} {pre post : List OpPayload}
    (hcp : cp.isCheckpoint = true) :
    SameRecord ((MaterializedView.empty ws).after readPatchSet (pre ++ cp :: post))
        ((MaterializedView.empty ws).after readPatchSet (.create epoch :: cp :: post)) ↔
      NothingForgotten epoch pre post := by
  obtain ⟨data, rfl⟩ := exists_data_of_checkpoint hcp
  -- Each field is what was written last; the operations after the checkpoint are the same.
  have hepoch : lastWrite OpPayload.epochWrite (some epoch) post =
      lastWrite OpPayload.epochWrite none (pre ++ .annotate checkpointKey data :: post) ↔
      (∃ p ∈ post, p.epochWrite ≠ none) ∨
        lastWrite OpPayload.epochWrite none pre = some epoch := by
    rw [lastWrite_append]
    exact lastWrite_eq_iff.trans (or_congr_right eq_comm)
  have hoid : lastWrite OpPayload.patchSetOidWrite none post =
      lastWrite OpPayload.patchSetOidWrite none (pre ++ .annotate checkpointKey data :: post) ↔
      (∃ p ∈ post, p.patchSetOidWrite ≠ none) ∨
        lastWrite OpPayload.patchSetOidWrite none pre = none := by
    rw [lastWrite_append]
    exact lastWrite_eq_iff.trans (or_congr_right eq_comm)
  have hpatch (h : lastWrite OpPayload.patchSetOidWrite none post =
      lastWrite OpPayload.patchSetOidWrite none (pre ++ .annotate checkpointKey data :: post)) :
      lastWrite (OpPayload.patchSetWrite readPatchSet) none post =
        lastWrite (OpPayload.patchSetWrite readPatchSet) none
          (pre ++ .annotate checkpointKey data :: post) := by
    have hread (payloads : List OpPayload) :
        lastWrite (OpPayload.patchSetWrite readPatchSet) none payloads =
          (lastWrite OpPayload.patchSetOidWrite none payloads).bind
            fun oid => (readPatchSet oid).toOption :=
      lastWrite_map (fun p => p.patchSetWrite_eq readPatchSet) none payloads
    rw [hread, hread, h]
  have hdescription : lastWrite OpPayload.descriptionWrite none post =
      lastWrite OpPayload.descriptionWrite none (pre ++ .annotate checkpointKey data :: post) ↔
      (∃ p ∈ post, p.descriptionWrite ≠ none) ∨ ∀ p ∈ pre, p.descriptionWrite = none := by
    rw [lastWrite_append]
    refine lastWrite_eq_iff.trans (or_congr_right (eq_comm.trans (lastWrite_eq_self_iff ?_)))
    intro p c hc
    rcases p <;> simp_all [OpPayload.descriptionWrite]
    exact hc ▸ by simp
  have hdestroyed : lastWrite OpPayload.destroyedWrite false post =
      lastWrite OpPayload.destroyedWrite false (pre ++ .annotate checkpointKey data :: post) ↔
      (∃ p ∈ post, p.destroyedWrite ≠ none) ∨
        lastWrite OpPayload.destroyedWrite false pre = false := by
    rw [lastWrite_append]
    exact lastWrite_eq_iff.trans (or_congr_right eq_comm)
  have hannotated (key : String) (hkey : key ≠ checkpointKey) :
      lastWrite (OpPayload.annotationWrite key) none
          (.create epoch :: .annotate checkpointKey data :: post) =
        lastWrite (OpPayload.annotationWrite key) none
          (pre ++ .annotate checkpointKey data :: post) ↔
      (∃ p ∈ post, p.annotationWrite key ≠ none) ∨ ∀ p ∈ pre, p.annotationWrite key = none := by
    have hnone : (OpPayload.annotate checkpointKey data).annotationWrite key = none :=
      if_neg hkey
    rw [lastWrite_append, lastWrite_cons, lastWrite_cons, lastWrite_cons, hnone]
    refine lastWrite_eq_iff.trans (or_congr_right (eq_comm.trans (lastWrite_eq_self_iff ?_)))
    intro p c hc
    rcases p <;> simp_all [OpPayload.annotationWrite]
    exact hc.2 ▸ by simp
  have hrecord : lastWrite (OpPayload.annotationWrite checkpointKey) none
        (.create epoch :: .annotate checkpointKey data :: post) =
      lastWrite (OpPayload.annotationWrite checkpointKey) none
        (pre ++ .annotate checkpointKey data :: post) := by
    rw [lastWrite_append, lastWrite_cons, lastWrite_cons, lastWrite_cons]
    simp [OpPayload.annotationWrite]
  have hlookup (payloads : List OpPayload) (key : String) :
      ((MaterializedView.empty ws).after readPatchSet payloads).annotations.lookup key =
        lastWrite (OpPayload.annotationWrite key) none payloads :=
    MaterializedView.lookup_annotations_after payloads key
  rw [sameRecord_iff]
  constructor
  · rintro ⟨-, he, -, ho, hd, ha, hde⟩
    refine ⟨hepoch.mp he, hoid.mp ho, hdescription.mp hd, hdestroyed.mp hde, fun key hkey => ?_⟩
    have h := ha key
    rw [hlookup, hlookup] at h
    exact (hannotated key hkey).mp h
  · intro h
    refine ⟨rfl, hepoch.mpr h.epoch, hpatch (hoid.mpr h.patchSet), hoid.mpr h.patchSet,
      hdescription.mpr h.description, fun key => ?_, hdestroyed.mpr h.isDestroyed⟩
    rw [hlookup, hlookup]
    by_cases hkey : key = checkpointKey
    · rw [hkey]
      exact hrecord
    · exact (hannotated key hkey).mpr (h.annotations key hkey)

/-- A compaction of the log, or its checkpoint has nothing before it, or what was before it is set
again. -/
def ForgetsNothing (ws : NamedWorkspace) (log : OpLog) : Prop :=
  ∀ chain, log.walkChain ws none none = .ok chain → ∀ cp pre, fromCheckpoint chain = cp :: pre →
    pre = [] ∨ ∃ epoch, checkpointEpoch cp.2 = .ok epoch ∧
      NothingForgotten epoch (payloads pre) (payloads (postCheckpoint chain))

section Full

variable {result : CompactionResult} {cp : GitOid × Operation} {chain' : List (GitOid × Operation)}
  {pre : List (GitOid × Operation)} {epoch : EpochId}

/-- The full replay of a compacted log. -/
theorem Compacted.materialize_eq
    (hnew : Compacted ws log' cp (postCheckpoint chain) chain' epoch)
    (hcp : isCheckpoint cp.2 = true) :
    materialize log' ws readPatchSet =
      (OpPayload.readAll readPatchSet (payloads (postCheckpoint chain))).map fun _ =>
        (MaterializedView.empty ws).after readPatchSet
          (.create epoch :: cp.2.payload :: payloads (postCheckpoint chain)) := by
  rw [materialize_of_walk hnew.walk', hnew.payloads_eq]
  obtain ⟨data, hdata⟩ := exists_data_of_checkpoint hcp
  rw [hdata]
  rfl

theorem readAll_postCheckpoint (hfrom : fromCheckpoint chain = cp :: pre)
    (h : OpPayload.readAll readPatchSet (payloads chain) = .ok ()) :
    OpPayload.readAll readPatchSet (payloads (postCheckpoint chain)) = .ok () := by
  obtain ⟨data, hdata⟩ := exists_data_of_checkpoint (isCheckpoint_of_fromCheckpoint hfrom)
  rw [payloads_of_fromCheckpoint hfrom, OpPayload.readAll_append, bind_eq_ok, hdata] at h
  exact h.choose_spec.2

/-- The full replays before and after a compaction agree exactly if nothing is forgotten. -/
theorem Compacted.keeps_full_iff
    (hnew : Compacted ws log' cp (postCheckpoint chain) chain' epoch)
    (hwalk : log.walkChain ws none none = .ok chain) (hfrom : fromCheckpoint chain = cp :: pre)
    (hread : OpPayload.readAll readPatchSet (payloads chain) = .ok ()) :
    (∀ v, materialize log ws readPatchSet = .ok v →
      ∃ w, materialize log' ws readPatchSet = .ok w ∧ SameRecord v w) ↔
      NothingForgotten epoch (payloads pre) (payloads (postCheckpoint chain)) := by
  have hcp := isCheckpoint_of_fromCheckpoint hfrom
  rw [← sameRecord_after_iff hcp, ← payloads_of_fromCheckpoint hfrom, materialize_of_walk hwalk,
    hnew.materialize_eq hcp, hread, readAll_postCheckpoint hfrom hread]
  constructor
  · intro h
    obtain ⟨w, hw, hrecord⟩ := h _ rfl
    obtain rfl := Except.ok.inj hw
    exact hrecord
  · rintro h v hv
    obtain rfl := Except.ok.inj hv
    exact ⟨_, rfl, h⟩

/-- A compaction that keeps the full replay of a log that can be read forgets nothing. -/
theorem forgetsNothing_of_keeps (hwalk : log.walkChain ws none none = .ok chain)
    (h : Returns OpLogOp.exec (compact ws) log result log')
    (hread : OpPayload.readAll readPatchSet (payloads chain) = .ok ())
    (hkeeps : CompactionKeeps readPatchSet ws log log') : ForgetsNothing ws log := by
  intro c hc cp' pre' hfrom'
  rw [hwalk] at hc
  cases hc
  obtain ⟨cp, pre, hfrom, ⟨rfl, rfl⟩ | ⟨epoch, chain', -, hepoch, hnew⟩⟩ := returns_compact hwalk h
  · rw [hfrom] at hfrom'
    exact .inl (List.cons.inj hfrom').2.symm
  · rw [hfrom] at hfrom'
    cases hfrom'
    exact .inr ⟨epoch, hepoch, (hnew.keeps_full_iff hwalk hfrom hread).mp hkeeps.full⟩

/-- A compaction of a log in which each operation names at most one parent keeps both replays and
the operations after the checkpoint exactly if a snapshot of the log cannot be read, so that there
is no view to keep, or nothing that was set before the checkpoint is forgotten. -/
theorem compactionKeeps_iff (hlinear : IsLinear ws log) (hcp : HasCheckpoint ws log)
    (h : Returns OpLogOp.exec (compact ws) log result log') :
    CompactionKeeps readPatchSet ws log log' ↔
      HasUnreadable readPatchSet ws log ∨ ForgetsNothing ws log := by
  obtain ⟨chain, hwalk, -⟩ := hcp
  constructor
  · intro hkeeps
    rcases hread : OpPayload.readAll readPatchSet (payloads chain) with err | _
    · exact .inl (hasUnreadable_of_readAll hwalk hread)
    · exact .inr (forgetsNothing_of_keeps hwalk h hread hkeeps)
  · intro hcond
    obtain ⟨cp, pre, hfrom, ⟨rfl, rfl⟩ | ⟨epoch, chain', hpre, hepoch, hnew⟩⟩ :=
      returns_compact hwalk h
    · -- Nothing comes before the checkpoint, and the log is what it was.
      refine ⟨fun v hv => ⟨v, hv, rfl⟩, fun v hv => ⟨v, hv, rfl⟩, fun c hc => ?_⟩
      exact ⟨c, hc, hlinear.nodup hc, rfl⟩
    refine ⟨?_, fun v hv => ⟨v, ?_, rfl⟩, fun c hc => ?_⟩
    · rcases hread : OpPayload.readAll readPatchSet (payloads chain) with err | _
      · intro v hv
        rw [materialize_of_walk hwalk, hread] at hv
        cases hv
      · refine (hnew.keeps_full_iff hwalk hfrom hread).mpr ?_
        rcases hcond with hunread | hforgets
        · obtain ⟨err, herr⟩ := readAll_of_hasUnreadable hwalk hunread
          rw [hread] at herr
          cases herr
        · obtain rfl | ⟨epoch', hepoch', hnothing⟩ := hforgets chain hwalk cp pre hfrom
          · exact absurd rfl hpre
          · rw [hepoch] at hepoch'
            cases hepoch'
            exact hnothing
    · rw [materializeFromCheckpoint_of_walk hwalk, replayChain, hfrom] at hv
      rw [materializeFromCheckpoint_of_walk hnew.walk', hnew.replay]
      exact hv
    · rw [hwalk] at hc
      cases hc
      exact ⟨chain', hnew.walk', hnew.nodup, hnew.operations⟩

end Full

/-! ### Runs of a compaction -/

theorem returns_rewriteLog_of {head createOid cpNewOid newHead : GitOid} {cpOp : Operation}
    {epoch : EpochId} {post : List (GitOid × Operation)} {store₁ store₂ store₃ : OpStore}
    (h₁ : log.store.Adds createOid ⟨[], ws, cpOp.timestamp, .create epoch⟩ store₁)
    (h₂ : store₁.Adds cpNewOid { cpOp with parentIds := [createOid] } store₂)
    (h₃ : Returns OpLogOp.exec (relink cpNewOid post.reverse) ⟨store₂, log.refs⟩ newHead
      ⟨store₃, log.refs⟩)
    (hmatch : log.refs.Matches (workspaceHeadRef ws) head) :
    Returns OpLogOp.exec (rewriteLog ws head cpOp epoch post) log newHead
      ⟨store₃, log.refs.insert (workspaceHeadRef ws) newHead⟩ := by
  refine returns_bind.mpr ⟨createOid, _, returns_writeOperationBlob.mpr ⟨_, h₁, rfl⟩, ?_⟩
  refine returns_bind.mpr ⟨cpNewOid, _, returns_writeOperationBlob.mpr ⟨_, h₂, rfl⟩, ?_⟩
  refine returns_bind.mpr ⟨newHead, _, h₃, ?_⟩
  refine returns_bind.mpr ⟨(), _, returns_attempt.mpr (exec_writeRefCas.mpr ⟨hmatch, rfl⟩), ?_⟩
  exact returns_pure.mpr ⟨rfl, rfl⟩

theorem returns_compact_of {head newHead : GitOid} {op : Operation} {epoch : EpochId}
    {rest pre : List (GitOid × Operation)} {cp before : GitOid × Operation}
    (hwalk : log.walkChain ws none none = .ok ((head, op) :: rest))
    (hfrom : fromCheckpoint ((head, op) :: rest) = cp :: before :: pre)
    (hepoch : checkpointEpoch cp.2 = .ok epoch)
    (h : Returns OpLogOp.exec
      (rewriteLog ws head cp.2 epoch (postCheckpoint ((head, op) :: rest))) log newHead log') :
    Returns OpLogOp.exec (compact ws) log ⟨newHead, ((head, op) :: rest).length,
      (postCheckpoint ((head, op) :: rest)).length + 2⟩ log' := by
  have hread : OpLogOp.exec (.walkChain ws) log (.ok ((head, op) :: rest)) log := by
    refine ⟨rfl, .inl ?_⟩
    rw [hwalk]
    rfl
  refine returns_bind.mpr ⟨_, log, returns_attempt.mpr hread, ?_⟩
  simp only [hfrom, hepoch]
  exact returns_bind.mpr ⟨newHead, log', h, returns_pure.mpr ⟨rfl, rfl⟩⟩

end Compact

/-! ### A small compaction -/

theorem checkpointedLog_walk : checkpointedLog.walkChain sampleWs none none =
    .ok [(sampleOid 3, sampleCheckpoint), (sampleOid 2, sampleDescribe),
      (sampleOid 1, sampleCreate)] :=
  walkChain_of_chain OpLog.readHead_appended checkpointedLog_chain

theorem checkpointEpoch_sampleCheckpoint :
    checkpointEpoch sampleCheckpoint = .ok ⟨sampleOid 10⟩ := by
  rw [checkpointEpoch, sampleCheckpoint, extractCheckpoint_createCheckpointOp]
  have hepoch : (CheckpointView.fromView describedView).epoch =
      some (EpochId.mk (sampleOid 10)).asStr := rfl
  simp only [hepoch, EpochId.new_asStr]

def syntheticCreate : Operation :=
  ⟨[], sampleWs, "2026-02-19T12:02:00Z", .create ⟨sampleOid 10⟩⟩

/-- The checkpoint, put on an operation that creates the workspace. -/
def rewrittenStore (s : OpStore) (hcreate : sampleOid 5 ∉ s.nodes) (hcp : sampleOid 6 ∉ s.nodes) :
    OpStore :=
  (s.add (sampleOid 5) syntheticCreate hcreate (by simp [syntheticCreate])).add (sampleOid 6)
    { sampleCheckpoint with parentIds := [sampleOid 5] }
    (fun h => (NodeStore.mem_add.mp h).elim (by decide) hcp)
    (fun parent h => NodeStore.mem_add.mpr (.inl (List.mem_singleton.mp h)))

theorem rewrittenStore_adds (s : OpStore) (hcreate : sampleOid 5 ∉ s.nodes)
    (hcp : sampleOid 6 ∉ s.nodes) : ∃ store₁, s.Adds (sampleOid 5) syntheticCreate store₁ ∧
      store₁.Adds (sampleOid 6) { sampleCheckpoint with parentIds := [sampleOid 5] }
        (rewrittenStore s hcreate hcp) :=
  ⟨_, NodeStore.adds_add, NodeStore.adds_add⟩

/-- The compaction of a created and described workspace. -/
def compactedLog : OpLog :=
  ⟨rewrittenStore checkpointedLog.store (by decide) (by decide),
    checkpointedLog.refs.insert (workspaceHeadRef sampleWs) (sampleOid 6)⟩

theorem compactedLog_returns : ∃ result,
    Returns OpLogOp.exec (compact sampleWs) checkpointedLog result compactedLog := by
  have hcp : isCheckpoint sampleCheckpoint = true := isCheckpoint_createCheckpointOp _ _ _ _
  have hmatch : checkpointedLog.refs.Matches (workspaceHeadRef sampleWs) (sampleOid 3) := by
    decide
  have hrewrite : Returns OpLogOp.exec
      (rewriteLog sampleWs (sampleOid 3) sampleCheckpoint ⟨sampleOid 10⟩ []) checkpointedLog
      (sampleOid 6) compactedLog := by
    obtain ⟨store₁, h₁, h₂⟩ := rewrittenStore_adds checkpointedLog.store (by decide) (by decide)
    exact returns_rewriteLog_of h₁ h₂ (returns_pure.mpr ⟨rfl, rfl⟩) hmatch
  have hpost : postCheckpoint [(sampleOid 3, sampleCheckpoint), (sampleOid 2, sampleDescribe),
      (sampleOid 1, sampleCreate)] = [] :=
    postCheckpoint_cons_of_checkpoint hcp
  rw [← hpost] at hrewrite
  exact ⟨_, returns_compact_of checkpointedLog_walk (fromCheckpoint_cons_of_checkpoint hcp)
    checkpointEpoch_sampleCheckpoint hrewrite⟩

/-- After a compaction, the full replay has lost the description that was set before the
checkpoint. -/
theorem compact_forgets_description : ∃ result,
    IsLinear sampleWs checkpointedLog ∧ HasCheckpoint sampleWs checkpointedLog ∧
      Returns OpLogOp.exec (compact sampleWs) checkpointedLog result compactedLog ∧
      ¬ CompactionKeeps noPatchSets sampleWs checkpointedLog compactedLog := by
  have hcp : isCheckpoint sampleCheckpoint = true := isCheckpoint_createCheckpointOp _ _ _ _
  obtain ⟨result, hreturns⟩ := compactedLog_returns
  refine ⟨result, isLinear_checkpointedLog, ⟨_, checkpointedLog_walk, _, List.mem_cons_self, hcp⟩,
    hreturns, fun hkeeps => ?_⟩
  have hforgets := forgetsNothing_of_keeps checkpointedLog_walk hreturns rfl hkeeps
  obtain h | ⟨epoch, -, h⟩ :=
    hforgets _ checkpointedLog_walk _ _ (fromCheckpoint_cons_of_checkpoint hcp)
  · cases h
  · rw [postCheckpoint_cons_of_checkpoint hcp] at h
    obtain ⟨p, hp, -⟩ | h := h.description
    · exact absurd hp List.not_mem_nil
    · have hnone := h sampleDescribe.payload (by simp)
      cases hnone

/-! ### A description after the checkpoint -/

def sampleRedescribe : Operation :=
  ⟨[sampleOid 3], sampleWs, "2026-02-19T12:03:00Z", .describe "step 4"⟩

/-- The workspace is described again after the checkpoint. -/
def redescribedLog : OpLog :=
  checkpointedLog.appended sampleWs (sampleOid 4) sampleRedescribe (by decide) (by decide)

/-- The checkpoint of its log, put on an operation that creates the workspace. -/
def redescribedStore : OpStore := rewrittenStore redescribedLog.store (by decide) (by decide)

theorem notMem_redescribedStore : sampleOid 7 ∉ redescribedStore.nodes := by decide

theorem mem_redescribedStore : ∀ parent ∈ [sampleOid 6], parent ∈ redescribedStore.nodes := by
  intro parent h
  obtain ⟨store₁, -, h₂⟩ := rewrittenStore_adds redescribedLog.store (by decide) (by decide)
  rw [List.mem_singleton.mp h]
  exact h₂.mem_self

def redescribedCompacted : OpLog :=
  ⟨redescribedStore.add (sampleOid 7) { sampleRedescribe with parentIds := [sampleOid 6] }
    notMem_redescribedStore mem_redescribedStore,
    redescribedLog.refs.insert (workspaceHeadRef sampleWs) (sampleOid 7)⟩

theorem redescribedLog_chain : ChainFrom redescribedLog.store [sampleOid 4]
    [(sampleOid 4, sampleRedescribe), (sampleOid 3, sampleCheckpoint),
      (sampleOid 2, sampleDescribe), (sampleOid 1, sampleCreate)] :=
  .cons rfl (.cons rfl (.cons rfl (.cons rfl .root)))

theorem redescribedLog_walk : redescribedLog.walkChain sampleWs none none =
    .ok [(sampleOid 4, sampleRedescribe), (sampleOid 3, sampleCheckpoint),
      (sampleOid 2, sampleDescribe), (sampleOid 1, sampleCreate)] :=
  walkChain_of_chain OpLog.readHead_appended redescribedLog_chain

theorem redescribedCompacted_returns : ∃ result,
    Returns OpLogOp.exec (compact sampleWs) redescribedLog result redescribedCompacted := by
  have hcp : isCheckpoint sampleCheckpoint = true := isCheckpoint_createCheckpointOp _ _ _ _
  have hmatch : redescribedLog.refs.Matches (workspaceHeadRef sampleWs) (sampleOid 4) := by
    decide
  have hpost : ∀ e ∈ [(sampleOid 4, sampleRedescribe)], isCheckpoint e.2 = false := by
    simp [isCheckpoint, OpPayload.isCheckpoint, sampleRedescribe]
  have hsplit : postCheckpoint ([(sampleOid 4, sampleRedescribe)] ++
        [(sampleOid 3, sampleCheckpoint), (sampleOid 2, sampleDescribe),
          (sampleOid 1, sampleCreate)]) = [(sampleOid 4, sampleRedescribe)] ∧
      fromCheckpoint ([(sampleOid 4, sampleRedescribe)] ++
        [(sampleOid 3, sampleCheckpoint), (sampleOid 2, sampleDescribe),
          (sampleOid 1, sampleCreate)]) = [(sampleOid 3, sampleCheckpoint),
          (sampleOid 2, sampleDescribe), (sampleOid 1, sampleCreate)] :=
    fromCheckpoint_append hpost hcp
  have hrewrite : Returns OpLogOp.exec
      (rewriteLog sampleWs (sampleOid 4) sampleCheckpoint ⟨sampleOid 10⟩
        [(sampleOid 4, sampleRedescribe)]) redescribedLog (sampleOid 7) redescribedCompacted := by
    obtain ⟨store₁, h₁, h₂⟩ := rewrittenStore_adds redescribedLog.store (by decide) (by decide)
    have hadds : redescribedStore.Adds (sampleOid 7)
        { sampleRedescribe with parentIds := [sampleOid 6] } redescribedCompacted.store :=
      .inr ⟨notMem_redescribedStore, mem_redescribedStore, rfl⟩
    have hwrite : Returns OpLogOp.exec
        (attempt (.writeOperationBlob { sampleRedescribe with parentIds := [sampleOid 6] }))
        ⟨redescribedStore, redescribedLog.refs⟩ (sampleOid 7)
        ⟨redescribedCompacted.store, redescribedLog.refs⟩ :=
      returns_writeOperationBlob.mpr ⟨redescribedCompacted.store, hadds, rfl⟩
    refine returns_rewriteLog_of h₁ h₂ ?_ hmatch
    exact returns_bind.mpr ⟨sampleOid 7, ⟨redescribedCompacted.store, redescribedLog.refs⟩, hwrite,
      returns_pure.mpr ⟨rfl, rfl⟩⟩
  rw [← hsplit.1] at hrewrite
  exact ⟨_, returns_compact_of redescribedLog_walk hsplit.2 checkpointEpoch_sampleCheckpoint
    hrewrite⟩

theorem isLinear_redescribedLog : IsLinear sampleWs redescribedLog := by
  intro head hhead
  rw [redescribedLog, OpLog.readHead_appended] at hhead
  cases hhead
  exact ⟨_, redescribedLog_chain⟩

/-- What the workspace was described as is not forgotten if it is described again. -/
theorem compactionKeeps_redescribedLog :
    CompactionKeeps noPatchSets sampleWs redescribedLog redescribedCompacted := by
  have hcp : isCheckpoint sampleCheckpoint = true := isCheckpoint_createCheckpointOp _ _ _ _
  obtain ⟨result, hreturns⟩ := redescribedCompacted_returns
  have hhas : HasCheckpoint sampleWs redescribedLog :=
    ⟨_, redescribedLog_walk, _, List.mem_cons_of_mem _ List.mem_cons_self, hcp⟩
  refine (compactionKeeps_iff isLinear_redescribedLog hhas hreturns).mpr (.inr ?_)
  intro chain hwalk cp pre hfrom
  rw [redescribedLog_walk] at hwalk
  cases hwalk
  have hnot : isCheckpoint sampleRedescribe = false := rfl
  rw [fromCheckpoint_cons_of_not hnot, fromCheckpoint_cons_of_checkpoint hcp] at hfrom
  cases hfrom
  rw [postCheckpoint_cons_of_not hnot, postCheckpoint_cons_of_checkpoint hcp]
  refine .inr ⟨_, checkpointEpoch_sampleCheckpoint, .inr rfl, .inr rfl, .inl ?_, .inr rfl, ?_⟩
  · exact ⟨sampleRedescribe.payload, List.mem_singleton_self _,
      by simp [sampleRedescribe, OpPayload.descriptionWrite]⟩
  · refine fun key _ => .inr ?_
    simp [payloads, sampleDescribe, sampleCreate, OpPayload.annotationWrite]

end Maw.Oplog
