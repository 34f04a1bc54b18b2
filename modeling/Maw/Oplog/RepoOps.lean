import Mathlib.Data.Prod.Lex
import Mathlib.Data.String.Basic
import Maw.Library.KeyedSort
import Maw.Oplog.Causal

/-!
# The operations of a repository

The logs of all workspaces are read together: the operations that any head leads to, each of them
once, the newest first.

## Main definitions

* `collectRepoOps` — the operations of all logs, newest first.
* `OpLog.Listed` — the operations that a head leads to.
* `IsHeadListing` — the refs of heads in any order.

## Main results

* `mem_collectRepoOps` — what is listed.
* `collectRepoOps_sorted` — the order of the list.
-/

open BreadthFirst

namespace Maw.Oplog

def headRefPrefix : String := "refs/manifold/head/"

/-- What follows the prefix of the refs of heads. -/
def stripHeadRefPrefix (refName : String) : Option String :=
  (refName.toList.dropPrefix? headRefPrefix.toList).map String.ofList

/-- An operation as the listing of a repository shows it. -/
structure RepoOp where
  id : GitOid
  workspace : NamedWorkspace
  timestamp : String
  payload : OpPayload

/-- What the listing is sorted by. -/
def opKey (timestamp : String) (id : GitOid) : String ×ₗ String :=
  toLex (timestamp, id.asStr)

def RepoOp.key (op : RepoOp) : String ×ₗ String := opKey op.timestamp op.id

/-- Add an operation of a workspace unless it is there. -/
def addRepoOp (ws : NamedWorkspace) (ops : List RepoOp) (e : GitOid × Operation) : List RepoOp :=
  if e.1 ∈ ops.map RepoOp.id then ops
  else ops ++ [⟨e.1, ws, e.2.timestamp, e.2.payload⟩]

/-- Add the operations of the log behind a ref; a log that cannot be read is passed over. -/
def addLog (log : OpLog) (ops : List RepoOp) (refName : String) : List RepoOp :=
  match (stripHeadRefPrefix refName).bind NamedWorkspace.new with
  | none => ops
  | some ws =>
    match log.walkChain ws none none with
    | .error _ => ops
    | .ok chain => chain.foldl (addRepoOp ws) ops

/-- The operations of all logs, newest first; `heads` are the refs of heads as they are listed. -/
def collectRepoOps (log : OpLog) (heads : List String) : List RepoOp :=
  (heads.foldl (addLog log) []).insertionSort fun a b => b.key ≤ a.key

/-- The refs of heads in some order. -/
def IsHeadListing (log : OpLog) (heads : List String) : Prop :=
  ∀ refName, refName ∈ heads ↔ refName ∈ log.refs ∧ headRefPrefix.toList <+: refName.toList

/-- The operation is one of those that a stored head leads to. -/
def OpLog.Listed (log : OpLog) (oid : GitOid) (op : Operation) : Prop :=
  log.store.nodes.lookup oid = some op ∧
    ∃ ws head, log.readHead ws = some head ∧ head ∈ log.store.nodes ∧
      log.store.IsAncestor oid head

/-! ### Names of heads -/

theorem stripHeadRefPrefix_append (name : String) :
    stripHeadRefPrefix (headRefPrefix ++ name) = some name := by
  have hdrop : (headRefPrefix ++ name).toList.dropPrefix? headRefPrefix.toList =
      some name.toList := by
    rw [String.toList_append]
    exact (List.dropPrefix?_eq_some_iff ..).mpr ⟨_, rfl, by simp⟩
  rw [stripHeadRefPrefix, hdrop, Option.map_some, String.ofList_toList]

variable {log : OpLog} {ws : NamedWorkspace} {oid : GitOid} {op : Operation}

/-! ### What is listed -/

/-- A walk lists the operations as they are stored. -/
theorem OpStore.lookup_of_walk {s : OpStore} {queue : List GitOid} {visited : Finset GitOid}
    {result chain : List (GitOid × Operation)}
    (hresult : ∀ e ∈ result, s.nodes.lookup e.1 = some e.2)
    (h : s.walk none none queue visited result = .ok chain) :
    ∀ e ∈ chain, s.nodes.lookup e.1 = some e.2 := by
  induction queue, visited, result using OpStore.walk.induct s none none with
  | case1 =>
    rw [walk] at h
    exact Except.ok.inj h ▸ hresult
  | case2 _ _ _ _ hdepth => simp at hdepth
  | case3 _ _ _ _ _ hseen ih =>
    rw [walk, if_neg (by simp), if_pos hseen] at h
    exact ih hresult h
  | case4 _ _ _ _ _ hseen hnone =>
    rw [walk, if_neg (by simp), if_neg hseen] at h
    grind
  | case5 _ _ _ _ _ _ _ _ hstop => simp at hstop
  | case6 oid queue visited result _ hseen op hop _ ih =>
    rw [walk, if_neg (by simp), if_neg hseen] at h
    refine ih (fun e he => ?_) (by grind)
    rcases List.mem_append.mp he with he | he
    · exact hresult e he
    · rw [List.mem_singleton.mp he, hop]

/-- The log of a workspace is read when its head is stored, and has what the head leads to. -/
theorem exists_walkChain {head : GitOid} (hhead : log.readHead ws = some head)
    (hstored : head ∈ log.store.nodes) :
    ∃ chain, log.walkChain ws none none = .ok chain ∧
      ∀ oid op, (oid, op) ∈ chain ↔
        log.store.nodes.lookup oid = some op ∧ log.store.IsAncestor oid head := by
  obtain ⟨chain, hwalk⟩ : ∃ chain, log.store.walk none none [head] ∅ [] = .ok chain :=
    exists_walk fun oid hoid => by rwa [List.mem_singleton.mp hoid]
  have hmem (x : GitOid) : x ∈ chain.map Prod.fst ↔ log.store.IsAncestor x head :=
    (search_of_walk (fun oid => by simp) hwalk).mem_iff.trans exists_pathTo_iff
  have hlookup := OpStore.lookup_of_walk (by simp) hwalk
  refine ⟨chain, by rw [OpLog.walkChain, hhead]; exact hwalk, fun oid op => ⟨fun he => ?_, ?_⟩⟩
  · exact ⟨hlookup _ he, (hmem oid).mp (List.mem_map_of_mem he)⟩
  · rintro ⟨hop, hanc⟩
    obtain ⟨e, he, rfl⟩ := List.mem_map.mp ((hmem oid).mpr hanc)
    have hsame := hlookup e he
    rw [hop] at hsame
    obtain rfl := Option.some.inj hsame
    exact he

/-- The log of a workspace can be read only when its head is stored. -/
theorem stored_of_walkChain {chain : List (GitOid × Operation)}
    (h : log.walkChain ws none none = .ok chain) :
    ∃ head, log.readHead ws = some head ∧ head ∈ log.store.nodes := by
  rw [OpLog.walkChain] at h
  cases hhead : log.readHead ws with
  | none => simp [hhead] at h
  | some head =>
    refine ⟨head, rfl, ?_⟩
    by_contra hnot
    have hnone := Finmap.lookup_eq_none.mpr hnot
    simp only [hhead] at h
    rw [OpStore.walk, if_neg (by simp), if_neg (by simp)] at h
    grind

/-- The item is an operation that is listed, with its data. -/
def RepoOp.IsListed (log : OpLog) (r : RepoOp) : Prop :=
  ∃ op, log.Listed r.id op ∧ r.timestamp = op.timestamp ∧ r.payload = op.payload

section Added

variable {chain : List (GitOid × Operation)} {ops : List RepoOp} {e : GitOid × Operation}
  {r : RepoOp} {refName : String} {heads : List String}

theorem mem_ids_addRepoOp :
    oid ∈ (addRepoOp ws ops e).map RepoOp.id ↔ oid ∈ ops.map RepoOp.id ∨ oid = e.1 := by
  rw [addRepoOp]
  split_ifs with hseen
  · constructor
    · exact .inl
    · rintro (h | rfl)
      · exact h
      · exact hseen
  · simp

theorem mem_ids_foldl_addRepoOp :
    oid ∈ (chain.foldl (addRepoOp ws) ops).map RepoOp.id ↔
      oid ∈ ops.map RepoOp.id ∨ oid ∈ chain.map Prod.fst := by
  induction chain generalizing ops with
  | nil => simp
  | cons e chain ih =>
    rw [List.foldl_cons, ih, mem_ids_addRepoOp, List.map_cons, List.mem_cons, or_assoc]

theorem mem_addRepoOp (h : r ∈ addRepoOp ws ops e) :
    r ∈ ops ∨ r = ⟨e.1, ws, e.2.timestamp, e.2.payload⟩ := by
  rw [addRepoOp] at h
  split_ifs at h with hseen
  · exact .inl h
  · exact (List.mem_append.mp h).imp_right List.mem_singleton.mp

theorem isListed_of_mem_foldl (hops : ∀ r ∈ ops, r.IsListed log)
    (hchain : ∀ e ∈ chain, log.Listed e.1 e.2) :
    ∀ r ∈ chain.foldl (addRepoOp ws) ops, r.IsListed log := by
  induction chain generalizing ops with
  | nil => exact hops
  | cons e chain ih =>
    refine ih (fun r hr => ?_) fun f hf => hchain f (List.mem_cons_of_mem e hf)
    rcases mem_addRepoOp hr with hr | rfl
    · exact hops r hr
    · exact ⟨e.2, hchain e List.mem_cons_self, rfl, rfl⟩

/-- What the log behind a ref adds is listed. -/
theorem isListed_of_mem_addLog (hops : ∀ r ∈ ops, r.IsListed log) :
    ∀ r ∈ addLog log ops refName, r.IsListed log := by
  rw [addLog]
  cases hname : (stripHeadRefPrefix refName).bind NamedWorkspace.new with
  | none => exact hops
  | some ws =>
    cases hwalk : log.walkChain ws none none with
    | error _ => simpa only [hwalk] using hops
    | ok chain =>
      simp only [hwalk]
      obtain ⟨head, hhead, hstored⟩ := stored_of_walkChain hwalk
      obtain ⟨chain', hwalk', hmem⟩ := exists_walkChain hhead hstored
      rw [hwalk] at hwalk'
      obtain rfl := Except.ok.inj hwalk'
      refine isListed_of_mem_foldl hops fun e he => ?_
      obtain ⟨hop, hanc⟩ := (hmem e.1 e.2).mp he
      exact ⟨hop, ws, head, hhead, hstored, hanc⟩

theorem mem_ids_addLog_of_mem (h : oid ∈ ops.map RepoOp.id) :
    oid ∈ (addLog log ops refName).map RepoOp.id := by
  rw [addLog]
  split
  · exact h
  · split
    · exact h
    · exact mem_ids_foldl_addRepoOp.mpr (.inl h)

/-- The log of a workspace is added when its ref comes. -/
theorem mem_ids_addLog {head : GitOid} (hhead : log.readHead ws = some head)
    (hstored : head ∈ log.store.nodes) (hop : log.store.nodes.lookup oid = some op)
    (hanc : log.store.IsAncestor oid head) :
    oid ∈ (addLog log ops (workspaceHeadRef ws)).map RepoOp.id := by
  obtain ⟨chain, hwalk, hmem⟩ := exists_walkChain hhead hstored
  have hname : (stripHeadRefPrefix (workspaceHeadRef ws)).bind NamedWorkspace.new = some ws := by
    rw [show workspaceHeadRef ws = headRefPrefix ++ ws.asStr from rfl, stripHeadRefPrefix_append,
      Option.bind_some, NamedWorkspace.new_asStr]
  rw [addLog, hname]
  simp only [hwalk]
  exact mem_ids_foldl_addRepoOp.mpr (.inr (List.mem_map.mpr ⟨_, (hmem oid op).mpr ⟨hop, hanc⟩, rfl⟩))

theorem mem_ids_foldl_addLog (h : oid ∈ ops.map RepoOp.id) :
    oid ∈ (heads.foldl (addLog log) ops).map RepoOp.id := by
  induction heads generalizing ops with
  | nil => exact h
  | cons refName heads ih => exact ih (mem_ids_addLog_of_mem h)

end Added

section Listing

variable {heads : List String} {r : RepoOp}

theorem isListed_of_mem_foldl_addLog {ops : List RepoOp} (hops : ∀ r ∈ ops, r.IsListed log) :
    ∀ r ∈ heads.foldl (addLog log) ops, r.IsListed log := by
  induction heads generalizing ops with
  | nil => exact hops
  | cons refName heads ih => exact ih (isListed_of_mem_addLog hops)

theorem mem_collectRepoOps : r ∈ collectRepoOps log heads ↔ r ∈ heads.foldl (addLog log) [] :=
  (List.perm_insertionSort _ _).mem_iff

/-- Every item of the listing is an operation that a head leads to. -/
theorem isListed_of_mem (h : r ∈ collectRepoOps log heads) : r.IsListed log :=
  isListed_of_mem_foldl_addLog (by simp) r (mem_collectRepoOps.mp h)

/-- Every operation that a head leads to has an item in the listing, in whatever order the heads
come. -/
theorem exists_mem_collectRepoOps (hheads : IsHeadListing log heads) (h : log.Listed oid op) :
    ∃ r ∈ collectRepoOps log heads, r.id = oid ∧ r.timestamp = op.timestamp ∧
      r.payload = op.payload := by
  obtain ⟨hop, ws, head, hhead, hstored, hanc⟩ := h
  have hin : workspaceHeadRef ws ∈ heads := by
    refine (hheads _).mpr ⟨FiniteMap.mem_of_lookup hhead, ws.asStr.toList, ?_⟩
    exact (String.toList_append ..).symm
  obtain ⟨l₁, l₂, rfl⟩ := List.append_of_mem hin
  have hid : oid ∈ ((l₁ ++ workspaceHeadRef ws :: l₂).foldl (addLog log) []).map RepoOp.id := by
    rw [List.foldl_append, List.foldl_cons]
    exact mem_ids_foldl_addLog (mem_ids_addLog hhead hstored hop hanc)
  obtain ⟨r, hr, rfl⟩ := List.mem_map.mp hid
  obtain ⟨op', ⟨hop', -⟩, htime, hpayload⟩ := isListed_of_mem_foldl_addLog (by simp) r hr
  rw [hop] at hop'
  obtain rfl := Option.some.inj hop'
  exact ⟨r, mem_collectRepoOps.mpr hr, rfl, htime, hpayload⟩

/-- The listing goes from the greatest key down. -/
theorem collectRepoOps_sorted :
    (collectRepoOps log heads).Pairwise fun a b => b.key ≤ a.key := by
  have : Std.Total fun a b : RepoOp => b.key ≤ a.key := ⟨fun a b => le_total b.key a.key⟩
  have : IsTrans RepoOp fun a b => b.key ≤ a.key := ⟨fun _ _ _ hab hbc => le_trans hbc hab⟩
  exact List.pairwise_insertionSort _ _

end Listing

end Maw.Oplog
