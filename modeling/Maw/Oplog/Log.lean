import Maw.Core.Refs
import Maw.Library.Interleaved
import Maw.Library.NodeStore
import Maw.Oplog.Types

/-!
# The log of a workspace

The operations of a workspace are stored as blobs that name their parents, and a ref names the
newest one. A log is read from that head along the parents, and appended to by storing an
operation and moving the head.

## Main definitions

* `OpStore`, `OpLog` — stored operations, and a repository's logs.
* `OpLog.walkChain` — the operations of a log, newest first.
* `ChainFrom` — the operations of a log in which each names at most one parent.
* `appendOperation` — storing an operation and moving the head.

## Main results

* `walkChain_of_chain` — such a log is read in the order of its chain.
-/

open Interleaved

namespace Maw.Oplog

inductive OpLogReadError
  | catFile (oid : GitOid)
  | deserialize (oid : GitOid)
  | io
  | refError (e : RefError)
  | noHead (workspaceId : NamedWorkspace)
  deriving DecidableEq, Repr

inductive OpLogWriteError
  | serialize
  | hashObject
  | invalidOid (raw : String)
  | io
  | casMismatch (workspaceId : NamedWorkspace)
  | refError (e : RefError)
  deriving DecidableEq, Repr

inductive ViewError
  | opLog (e : OpLogReadError)
  | patchSetRead (oid : String) (detail : String)
  deriving DecidableEq, Repr

/-- What is wrong with the data of a checkpoint. -/
inductive InvalidData
  | unparseable
  | noEpoch
  | epochInCheckpoint (epoch : String)
  | epochOid (epoch : Option String)
  | patchSetOid (patchSetOid : Option String)
  | workspaceId (workspaceId : String)
  deriving DecidableEq, Repr

inductive CheckpointError
  | opLogRead (e : OpLogReadError)
  | opLogWrite (e : OpLogWriteError)
  | view (e : ViewError)
  | invalidData (detail : InvalidData)
  | noCheckpoint (workspaceId : NamedWorkspace)
  deriving DecidableEq, Repr

/-- The stored operations. -/
abbrev OpStore := NodeStore GitOid Operation Operation.parentIds

/-- The stored operations of a repository and its refs. -/
structure OpLog where
  store : OpStore
  refs : RefStore

def workspaceHeadRef (ws : NamedWorkspace) : String := "refs/manifold/head/" ++ ws.asStr

namespace OpStore

/-- Read the operations that the queue leads to, breadth first. -/
def walk (s : OpStore) (maxDepth : Option ℕ) (stopAt : Option (Operation → Bool)) :
    (queue : List GitOid) → (visited : Finset GitOid) → (result : List (GitOid × Operation)) →
      Except OpLogReadError (List (GitOid × Operation))
  | [], _, result => .ok result
  | oid :: queue, visited, result =>
    if maxDepth.any (· ≤ result.length) then
      .ok result
    else if oid ∈ visited then
      s.walk maxDepth stopAt queue visited result
    else
      match _h : s.nodes.lookup oid with
      | none => .error (.catFile oid)
      | some op =>
        -- The operation at which the walk stops is listed, its parents are not looked for.
        if stopAt.any (· op) then
          s.walk maxDepth stopAt queue (insert oid visited) (result ++ [(oid, op)])
        else
          s.walk maxDepth stopAt (queue ++ op.parentIds.filter (· ∉ insert oid visited))
            (insert oid visited) (result ++ [(oid, op)])
termination_by queue visited => ((s.nodes.keys \ visited).card, queue.length)
decreasing_by
  · exact Prod.Lex.right _ (by simp)
  all_goals
    refine Prod.Lex.left _ _ (Finset.card_lt_card ?_)
    refine ⟨Finset.sdiff_subset_sdiff le_rfl (Finset.subset_insert _ _), fun hsub => ?_⟩
    have hmem : oid ∈ s.nodes.keys \ visited := by
      rw [Finset.mem_sdiff, Finmap.mem_keys]
      exact ⟨FiniteMap.mem_of_lookup ‹_›, ‹_›⟩
    exact absurd (hsub hmem) (by simp)

section Walk

variable {s s' : OpStore} {maxDepth : Option ℕ} {stopAt : Option (Operation → Bool)}
  {queue : List GitOid} {visited : Finset GitOid} {result r : List (GitOid × Operation)}

/-- A walk keeps what it listed. -/
theorem prefix_of_walk (h : s.walk maxDepth stopAt queue visited result = .ok r) :
    result <+: r := by
  induction queue, visited, result using OpStore.walk.induct s maxDepth stopAt with
  | case1 =>
    rw [walk] at h
    exact Except.ok.inj h ▸ List.prefix_refl _
  | case2 _ _ _ _ hdepth =>
    rw [walk, if_pos hdepth] at h
    exact Except.ok.inj h ▸ List.prefix_refl _
  | case3 _ _ _ _ hdepth hvisited ih =>
    rw [walk, if_neg hdepth, if_pos hvisited] at h
    exact ih h
  | case4 _ _ _ _ hdepth hvisited hnone =>
    rw [walk, if_neg hdepth, if_neg hvisited] at h
    grind
  | case5 _ _ _ _ hdepth hvisited op hop hstop ih =>
    rw [walk, if_neg hdepth, if_neg hvisited] at h
    exact (List.prefix_append _ _).trans (ih (by grind))
  | case6 _ _ _ _ hdepth hvisited op hop hstop ih =>
    rw [walk, if_neg hdepth, if_neg hvisited] at h
    exact (List.prefix_append _ _).trans (ih (by grind))

/-- A walk that returns does so in a larger store. -/
theorem walk_mono (hs : ∀ oid op, s.nodes.lookup oid = some op → s'.nodes.lookup oid = some op)
    (h : s.walk maxDepth stopAt queue visited result = .ok r) :
    s'.walk maxDepth stopAt queue visited result = .ok r := by
  induction queue, visited, result using OpStore.walk.induct s maxDepth stopAt with
  | case1 =>
    rw [walk] at h ⊢
    exact h
  | case2 _ _ _ _ hdepth =>
    rw [walk, if_pos hdepth] at h ⊢
    exact h
  | case3 _ _ _ _ hdepth hvisited ih =>
    rw [walk, if_neg hdepth, if_pos hvisited] at h ⊢
    exact ih h
  | case4 _ _ _ _ hdepth hvisited hnone =>
    rw [walk, if_neg hdepth, if_neg hvisited] at h
    grind
  | case5 _ _ _ _ hdepth hvisited op hop hstop ih =>
    rw [walk, if_neg hdepth, if_neg hvisited] at h ⊢
    have hop' := hs _ _ hop
    grind
  | case6 _ _ _ _ hdepth hvisited op hop hstop ih =>
    rw [walk, if_neg hdepth, if_neg hvisited] at h ⊢
    have hop' := hs _ _ hop
    grind

end Walk

end OpStore

namespace OpLog

def readHead (log : OpLog) (ws : NamedWorkspace) : Option GitOid :=
  log.refs.lookup (workspaceHeadRef ws)

/-- The operations of a workspace, newest first. -/
def walkChain (log : OpLog) (ws : NamedWorkspace) (maxDepth : Option ℕ)
    (stopAt : Option (Operation → Bool)) : Except OpLogReadError (List (GitOid × Operation)) :=
  match log.readHead ws with
  | none => .error (.noHead ws)
  | some head => log.store.walk maxDepth stopAt [head] ∅ []

/-- A log that can be read has an operation. -/
theorem ne_nil_of_walkChain {log : OpLog} {ws : NamedWorkspace}
    {chain : List (GitOid × Operation)} (h : log.walkChain ws none none = .ok chain) :
    chain ≠ [] := by
  rw [walkChain] at h
  rcases hhead : log.readHead ws with _ | head
  · simp [hhead] at h
  · simp only [hhead] at h
    rw [OpStore.walk, if_neg (by simp), if_neg (Finset.notMem_empty head)] at h
    split at h
    · exact absurd h (by simp)
    · next op _ =>
      rw [if_neg (by simp)] at h
      have hprefix := OpStore.prefix_of_walk h
      rintro rfl
      exact absurd (List.prefix_nil.mp hprefix) (by simp)

end OpLog

/-! ### Chains -/

/-- The operations that the ids lead to, newest first, where each names at most one parent. -/
inductive ChainFrom (s : OpStore) : List GitOid → List (GitOid × Operation) → Prop
  | root : ChainFrom s [] []
  | cons {oid : GitOid} {op : Operation} {chain : List (GitOid × Operation)}
      (hop : s.nodes.lookup oid = some op) (hchain : ChainFrom s op.parentIds chain) :
      ChainFrom s [oid] ((oid, op) :: chain)

namespace ChainFrom

variable {s s' : OpStore} {ids : List GitOid} {oid : GitOid} {op : Operation}
  {chain chain' : List (GitOid × Operation)}

/-- The operations of a chain are ancestors of its head. -/
theorem isAncestor (h : ChainFrom s ids chain) :
    ∀ e ∈ chain, ∃ head ∈ ids, s.IsAncestor e.1 head := by
  induction h with
  | root => simp
  | @cons oid op chain hop _ ih =>
    intro e he
    refine ⟨oid, List.mem_singleton_self oid, ?_⟩
    rcases List.mem_cons.mp he with rfl | he
    · exact .refl oid
    · obtain ⟨parent, hparent, hanc⟩ := ih e he
      exact hanc.trans (NodeStore.ParentOf.isAncestor ⟨op, hop, hparent⟩)

/-- No operation of a chain comes before itself. -/
theorem ne_of_mem (hop : s.nodes.lookup oid = some op) (h : ChainFrom s op.parentIds chain) :
    ∀ e ∈ chain, e.1 ≠ oid := by
  intro e he heq
  obtain ⟨parent, hparent, hanc⟩ := h.isAncestor e he
  have hparentOf : s.ParentOf parent oid := ⟨op, hop, hparent⟩
  have hloop : Relation.TransGen s.ParentOf e.1 oid := Relation.TransGen.tail' hanc hparentOf
  rw [heq] at hloop
  exact NodeStore.transGen_irrefl oid hloop

theorem nodup (h : ChainFrom s ids chain) : (chain.map Prod.fst).Nodup := by
  induction h with
  | root => exact List.nodup_nil
  | cons hop hchain ih =>
    rw [List.map_cons, List.nodup_cons]
    refine ⟨fun hmem => ?_, ih⟩
    obtain ⟨e, he, heq⟩ := List.mem_map.mp hmem
    exact ne_of_mem hop hchain e he heq

/-- The ids that a chain leads from are in it. -/
theorem exists_mem (h : ChainFrom s ids chain) : ∀ head ∈ ids, ∃ e ∈ chain, e.1 = head := by
  intro head hhead
  cases h with
  | root => exact absurd hhead List.not_mem_nil
  | cons => exact ⟨_, List.mem_cons_self, (List.mem_singleton.mp hhead).symm⟩

/-- A chain stays what it is when operations are added. -/
theorem adds (h : ChainFrom s ids chain) (hs : s.Adds oid op s') : ChainFrom s' ids chain := by
  induction h with
  | root => exact .root
  | cons hop _ ih => exact .cons (hs.lookup hop) ih

theorem walk_eq (h : ChainFrom s ids chain) {visited : Finset GitOid}
    {result : List (GitOid × Operation)} (hvisited : ∀ e ∈ chain, e.1 ∉ visited) :
    s.walk none none ids visited result = .ok (result ++ chain) := by
  induction h generalizing visited result with
  | root => rw [OpStore.walk, List.append_nil]
  | @cons oid op chain hop hchain ih =>
    have hrest : ∀ e ∈ chain, e.1 ∉ insert oid visited := by
      intro e he
      rw [Finset.mem_insert, not_or]
      exact ⟨ne_of_mem hop hchain e he, hvisited e (List.mem_cons_of_mem _ he)⟩
    have hqueue : op.parentIds.filter (· ∉ insert oid visited) = op.parentIds := by
      rw [List.filter_eq_self]
      intro parent hparent
      obtain ⟨e, he, heq⟩ := hchain.exists_mem parent hparent
      exact decide_eq_true (heq ▸ hrest e he)
    have hnew := hvisited _ List.mem_cons_self
    rw [OpStore.walk, if_neg (by simp), if_neg hnew]
    split
    · next hnone => simp [hop] at hnone
    · next op' hsome =>
      rw [hop] at hsome
      obtain rfl := Option.some.inj hsome
      rw [if_neg (by simp), List.nil_append, hqueue, ih hrest, List.append_assoc,
        List.singleton_append]

end ChainFrom

/-- A log in which each operation names at most one parent is read in the order of its chain. -/
theorem walkChain_of_chain {log : OpLog} {ws : NamedWorkspace} {head : GitOid}
    {chain : List (GitOid × Operation)} (hhead : log.readHead ws = some head)
    (h : ChainFrom log.store [head] chain) : log.walkChain ws none none = .ok chain := by
  rw [OpLog.walkChain, hhead]
  exact h.walk_eq fun e _ => Finset.notMem_empty e.1

/-! ### Writing -/

inductive OpLogOp
  | walkChain (ws : NamedWorkspace)
  | writeOperationBlob (op : Operation)
  | writeRefCas (ws : NamedWorkspace) (oldOid newOid : GitOid)

namespace OpLogOp

/-- What an operation returns. -/
abbrev Ret : OpLogOp → Type
  | walkChain _ => List (GitOid × Operation)
  | writeOperationBlob _ => GitOid
  | writeRefCas _ _ _ => Unit

/-- How a failure to move the head of a log is reported. -/
def headError (ws : NamedWorkspace) : RefError → CheckpointError
  | .casMismatch _ => .opLogWrite (.casMismatch ws)
  | e => .opLogWrite (.refError e)

/-- What an operation does; one that fails changes nothing. -/
def exec : (op : OpLogOp) → OpLog → Except CheckpointError op.Ret → OpLog → Prop
  | walkChain ws, log, r, log' =>
    log' = log ∧ (r = (log.walkChain ws none none).mapError .opLogRead ∨
      ∃ e, r = .error (.opLogRead e))
  | writeOperationBlob op, log, r, log' =>
    ((∃ e, r = .error (.opLogWrite e)) ∧ log' = log) ∨
      ∃ oid store, log.store.Adds oid op store ∧ r = .ok oid ∧ log' = { log with store }
  | writeRefCas ws oldOid newOid, log, r, log' =>
    ∃ result refs, UpdatesRefsAtomic [⟨workspaceHeadRef ws, oldOid, newOid⟩] log.refs result refs ∧
      r = result.mapError (headError ws) ∧ log' = { log with refs }

end OpLogOp

/-- Programs on the logs of a repository. -/
abbrev OpLogProg := Fallible CheckpointError OpLogOp OpLogOp.Ret

/-- Store an operation and move the head to it; the zero id stands for a log without head. -/
def appendOperation (ws : NamedWorkspace) (op : Operation) (oldHead : Option GitOid) :
    OpLogProg GitOid := do
  let newOid ← attempt (OpLogOp.writeOperationBlob op)
  attempt (OpLogOp.writeRefCas ws (oldHead.getD ⟨0⟩) newOid)
  return newOid

/-- The log after an operation was appended under a new id. -/
def OpLog.appended (log : OpLog) (ws : NamedWorkspace) (oid : GitOid) (op : Operation)
    (hnew : oid ∉ log.store.nodes) (hparents : ∀ parent ∈ op.parentIds, parent ∈ log.store.nodes) :
    OpLog :=
  ⟨log.store.add oid op hnew hparents, log.refs.insert (workspaceHeadRef ws) oid⟩

@[simp]
theorem OpLog.readHead_appended {log : OpLog} {ws : NamedWorkspace} {oid : GitOid} {op : Operation}
    {hnew : oid ∉ log.store.nodes}
    {hparents : ∀ parent ∈ op.parentIds, parent ∈ log.store.nodes} :
    (log.appended ws oid op hnew hparents).readHead ws = some oid :=
  Finmap.lookup_insert _

/-- The log after the head was moved from one operation to another. -/
theorem exec_writeRefCas {ws : NamedWorkspace} {oldOid newOid : GitOid} {log log' : OpLog} :
    OpLogOp.exec (.writeRefCas ws oldOid newOid) log (.ok ()) log' ↔
      log.refs.Matches (workspaceHeadRef ws) oldOid ∧
        log' = { log with refs := log.refs.insert (workspaceHeadRef ws) newOid } := by
  constructor
  · rintro ⟨result, refs, ⟨rfl, hmatch, rfl⟩ | ⟨⟨e, rfl⟩, -⟩, hresult, rfl⟩
    · exact ⟨hmatch _ (List.mem_singleton_self _), rfl⟩
    · cases hresult
  · rintro ⟨hmatch, rfl⟩
    refine ⟨.ok (), _, .inl ⟨rfl, ?_, rfl⟩, rfl, rfl⟩
    intro edit hedit
    rw [List.mem_singleton.mp hedit]
    exact hmatch

/-- Appending stores the operation and moves the head from where it was. -/
theorem returns_appendOperation {ws : NamedWorkspace} {op : Operation} {oldHead : Option GitOid}
    {log log' : OpLog} {oid : GitOid} :
    Returns OpLogOp.exec (appendOperation ws op oldHead) log oid log' ↔
      ∃ store, log.store.Adds oid op store ∧
        log.refs.Matches (workspaceHeadRef ws) (oldHead.getD ⟨0⟩) ∧
        log' = ⟨store, log.refs.insert (workspaceHeadRef ws) oid⟩ := by
  rw [appendOperation, returns_bind]
  constructor
  · rintro ⟨newOid, log₁, hwrite, hrest⟩
    rw [returns_attempt] at hwrite
    obtain ⟨⟨e, he⟩, -⟩ | ⟨oid', store, hadds, hoid, rfl⟩ := hwrite
    · cases he
    · obtain ⟨u, log₂, hcas, hdone⟩ := returns_bind.mp hrest
      obtain ⟨rfl, rfl⟩ := returns_pure.mp hdone
      cases hoid
      obtain ⟨hmatch, rfl⟩ := exec_writeRefCas.mp (returns_attempt.mp hcas)
      exact ⟨store, hadds, hmatch, rfl⟩
  · rintro ⟨store, hadds, hmatch, rfl⟩
    refine ⟨oid, { log with store }, returns_attempt.mpr (.inr ⟨oid, store, hadds, rfl, rfl⟩), ?_⟩
    refine returns_bind.mpr ⟨(), _, returns_attempt.mpr (exec_writeRefCas.mpr ⟨hmatch, rfl⟩), ?_⟩
    exact returns_pure.mpr ⟨rfl, rfl⟩

/-- An operation can be appended to a log whose head, if there is one, is a real id. -/
theorem returns_appended {log : OpLog} {ws : NamedWorkspace} {oid : GitOid} {op : Operation}
    {hnew : oid ∉ log.store.nodes}
    {hparents : ∀ parent ∈ op.parentIds, parent ∈ log.store.nodes}
    (h : ∀ head, log.readHead ws = some head → head.bits ≠ 0) :
    Returns OpLogOp.exec (appendOperation ws op (log.readHead ws)) log oid
      (log.appended ws oid op hnew hparents) := by
  refine returns_appendOperation.mpr ⟨_, .inr ⟨hnew, hparents, rfl⟩, ?_, rfl⟩
  change log.readHead ws = if ((log.readHead ws).getD ⟨0⟩).bits = 0 then none else _
  rcases hhead : log.readHead ws with _ | head
  · rfl
  · exact (if_neg (h head hhead)).symm

end Maw.Oplog
