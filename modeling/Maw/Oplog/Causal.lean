import Maw.Library.BreadthFirst
import Maw.Oplog.CheckpointReplay

/-!
# The order in which a log is replayed

A log is read breadth first from its head and replayed in the reverse order, which is meant to be
causal: every operation after its parents. It is so exactly when the search comes to each
operation before it comes to its parents.

## Main definitions

* `CausalOrder` — every operation of a log once, after its parents.
* `OpStore.parentsOf` — the graph that is searched.

## Main results

* `replay_causal_iff` — when a log is replayed in causal order.
-/

open BreadthFirst

namespace Maw.Oplog

/-- The sequence has the operations that can be reached from the head, each of them once and after
its parents. -/
structure CausalOrder (s : OpStore) (head : GitOid) (ids : List GitOid) : Prop where
  nodup : ids.Nodup
  mem_iff : ∀ oid, oid ∈ ids ↔ s.IsAncestor oid head
  parentsFirst : ∀ l₁ oid l₂, ids = l₁ ++ oid :: l₂ → ∀ parent, s.ParentOf parent oid → parent ∈ l₁

/-- The parents of a stored operation. -/
def OpStore.parentsOf (s : OpStore) (oid : GitOid) : List GitOid :=
  ((s.nodes.lookup oid).map Operation.parentIds).getD []

section Search

variable {s : OpStore} {oid parent head : GitOid} {op : Operation}

theorem OpStore.parentsOf_eq (h : s.nodes.lookup oid = some op) :
    s.parentsOf oid = op.parentIds := by
  rw [parentsOf, h]
  rfl

theorem OpStore.mem_parentsOf : parent ∈ s.parentsOf oid ↔ s.ParentOf parent oid := by
  rw [parentsOf, NodeStore.ParentOf]
  rcases s.nodes.lookup oid with _ | op <;> simp

/-- What paths lead to are the ancestors. -/
theorem exists_pathTo_iff : (∃ path, PathTo s.parentsOf head path oid) ↔ s.IsAncestor oid head := by
  constructor
  · rintro ⟨path, hpath⟩
    induction hpath with
    | root => exact .refl _
    | step _ hi ih =>
      have hparent := OpStore.mem_parentsOf.mp (List.mem_of_getElem? hi)
      exact hparent.isAncestor.trans ih
  · intro hanc
    induction hanc using Relation.ReflTransGen.head_induction_on with
    | refl => exact ⟨[], .root⟩
    | head hparent _ ih =>
      obtain ⟨path, hpath⟩ := ih
      obtain ⟨i, hi⟩ := List.mem_iff_getElem?.mp (OpStore.mem_parentsOf.mpr hparent)
      exact ⟨path ++ [i], .step hpath hi⟩

/-- A whole walk is a search. -/
theorem search_of_walk {queue : List GitOid} {visited : Finset GitOid}
    {result chain : List (GitOid × Operation)}
    (hvisited : ∀ oid, oid ∈ visited ↔ oid ∈ result.map Prod.fst)
    (h : s.walk none none queue visited result = .ok chain) :
    Search s.parentsOf queue (result.map Prod.fst) (chain.map Prod.fst) := by
  induction queue, visited, result using OpStore.walk.induct s none none with
  | case1 =>
    rw [OpStore.walk] at h
    exact Except.ok.inj h ▸ .done _
  | case2 _ _ _ _ hdepth => simp at hdepth
  | case3 _ _ _ _ _ hseen ih =>
    rw [OpStore.walk, if_neg (by simp), if_pos hseen] at h
    exact .skip ((hvisited _).mp hseen) (ih hvisited h)
  | case4 _ _ _ _ _ hseen hnone =>
    rw [OpStore.walk, if_neg (by simp), if_neg hseen] at h
    grind
  | case5 _ _ _ _ _ _ _ _ hstop => simp at hstop
  | case6 oid queue visited result _ hseen op hop _ ih =>
    rw [OpStore.walk, if_neg (by simp), if_neg hseen] at h
    have hnew (x : GitOid) :
        x ∈ insert oid visited ↔ x ∈ (result ++ [(oid, op)]).map Prod.fst := by
      rw [Finset.mem_insert, hvisited, List.map_append, List.mem_append, or_comm]
      simp
    refine .visit (fun hin => hseen ((hvisited _).mpr hin)) ?_
    have hrest := ih hnew (by grind)
    rw [List.map_append, List.map_singleton] at hrest hnew
    rw [OpStore.parentsOf_eq hop]
    have hfilter : op.parentIds.filter (· ∉ insert oid visited) =
        op.parentIds.filter (· ∉ result.map Prod.fst ++ [oid]) :=
      List.filter_congr fun x _ => by simp only [hnew]
    rw [hfilter] at hrest
    exact hrest

/-- A walk from stored operations does not fail. -/
theorem exists_walk {queue : List GitOid} {visited : Finset GitOid}
    {result : List (GitOid × Operation)} (hstored : ∀ oid ∈ queue, oid ∈ s.nodes) :
    ∃ chain, s.walk none none queue visited result = .ok chain := by
  induction queue, visited, result using OpStore.walk.induct s none none with
  | case1 => exact ⟨_, by rw [OpStore.walk]⟩
  | case2 _ _ _ _ hdepth => simp at hdepth
  | case3 _ _ _ _ _ hseen ih =>
    rw [OpStore.walk, if_neg (by simp), if_pos hseen]
    exact ih fun oid hoid => hstored oid (List.mem_cons_of_mem _ hoid)
  | case4 oid _ _ _ _ _ hnone =>
    exact absurd (hstored oid List.mem_cons_self) (Finmap.lookup_eq_none.mp hnone)
  | case5 _ _ _ _ _ _ _ _ hstop => simp at hstop
  | case6 oid queue _ _ _ hseen op hop _ ih =>
    obtain ⟨chain, hchain⟩ := ih fun x hx => by
      rcases List.mem_append.mp hx with hx | hx
      · exact hstored x (List.mem_cons_of_mem _ hx)
      · exact s.closed oid op hop x (List.mem_of_mem_filter hx)
    refine ⟨chain, ?_⟩
    rw [OpStore.walk, if_neg (by simp), if_neg hseen]
    grind

/-- A search that sees the operations before their parents gives, in reverse, a causal order. -/
theorem causalOrder_iff {ids : List GitOid} (h : Search s.parentsOf [head] [] ids) :
    CausalOrder s head ids.reverse ↔ ∀ oid parent, s.IsAncestor oid head →
      s.ParentOf parent oid → Precedes s.parentsOf head oid parent := by
  have hmem (x : GitOid) : x ∈ ids ↔ s.IsAncestor x head := h.mem_iff.trans exists_pathTo_iff
  constructor
  · intro hcausal oid parent hanc hparent
    obtain ⟨l₁, l₂, heq⟩ := List.append_of_mem ((hmem oid).mpr hanc)
    refine (h.before_iff heq (exists_pathTo_iff.mpr (hparent.isAncestor.trans hanc))).mp ?_
    have hrev : ids.reverse = l₂.reverse ++ oid :: l₁.reverse := by rw [heq]; simp
    exact List.mem_reverse.mp (hcausal.parentsFirst _ _ _ hrev parent hparent)
  · intro hprecedes
    refine ⟨List.nodup_reverse.mpr h.nodup, fun x => by rw [List.mem_reverse, hmem], ?_⟩
    intro l₁ oid l₂ heq parent hparent
    have hids : ids = l₂.reverse ++ oid :: l₁.reverse := by
      rw [← List.reverse_reverse ids, heq]
      simp
    have hanc : s.IsAncestor oid head := (hmem oid).mp (by rw [hids]; simp)
    have hin := (h.before_iff hids (exists_pathTo_iff.mpr (hparent.isAncestor.trans hanc))).mpr
      (hprecedes oid parent hanc hparent)
    exact List.mem_reverse.mp hin

end Search

/-- A log is replayed in the reverse of the order in which it is read, and that is causal exactly
when the search comes to each operation before it comes to its parents. -/
theorem replay_causal_iff {log : OpLog} {ws : NamedWorkspace} {head : GitOid}
    (hhead : log.readHead ws = some head) (hstored : head ∈ log.store.nodes) :
    ∃ chain, log.walkChain ws none none = .ok chain ∧
      (∀ readPatchSet, materialize log ws readPatchSet =
        materializeFromOps ws chain.reverse readPatchSet) ∧
      (CausalOrder log.store head (chain.reverse.map Prod.fst) ↔
        ∀ oid parent, log.store.IsAncestor oid head → log.store.ParentOf parent oid →
          Precedes log.store.parentsOf head oid parent) := by
  obtain ⟨chain, hwalk⟩ : ∃ chain, log.store.walk none none [head] ∅ [] = .ok chain :=
    exists_walk fun oid hoid => by rwa [List.mem_singleton.mp hoid]
  have hchain : log.walkChain ws none none = .ok chain := by
    rw [OpLog.walkChain, hhead]
    exact hwalk
  refine ⟨chain, hchain, fun readPatchSet => ?_, ?_⟩
  · rw [materialize, hchain]
    rfl
  · rw [List.map_reverse]
    exact causalOrder_iff (search_of_walk (fun oid => by simp) hwalk)

/-- The two operations of a small log are replayed in causal order. -/
theorem describedLog_causal : ∃ chain, describedLog.walkChain sampleWs none none = .ok chain ∧
    CausalOrder describedLog.store (sampleOid 2) (chain.reverse.map Prod.fst) := by
  have hhead : describedLog.readHead sampleWs = some (sampleOid 2) := OpLog.readHead_appended
  obtain ⟨chain, hchain, -, hcausal⟩ := replay_causal_iff hhead (Finmap.mem_insert.mpr (.inl rfl))
  refine ⟨chain, hchain, hcausal.mpr ?_⟩
  rintro oid parent - ⟨op, hop, hparent⟩
  -- The second operation is the only one with a parent, and the search begins with it.
  have hlookup : describedLog.store.nodes.lookup oid = if oid = sampleOid 2 then some sampleDescribe
      else if oid = sampleOid 1 then some sampleCreate else none := by
    change ((Finmap.insert _ _ ∅ : FiniteMap GitOid Operation).insert _ _).lookup oid = _
    rw [FiniteMap.lookup_insert, FiniteMap.lookup_insert, Finmap.lookup_empty]
  rw [hlookup] at hop
  split_ifs at hop with hsecond hfirst
  · obtain rfl := Option.some.inj hop
    obtain rfl := List.mem_singleton.mp hparent
    rw [hsecond]
    exact precedes_root (by decide)
  · obtain rfl := Option.some.inj hop
    exact absurd hparent List.not_mem_nil

/-- A log with a merge of the first operation and the second one, which is on top of it. -/
def sampleMergeOp : Operation :=
  ⟨[sampleOid 1, sampleOid 2], sampleWs, "2026-02-19T12:03:00Z", .describe "merge"⟩

def mergedLog : OpLog :=
  describedLog.appended sampleWs (sampleOid 4) sampleMergeOp (by decide) (by decide)

/-- The second operation of the log is replayed before the first one, its parent. -/
theorem mergedLog_not_causal : ∃ chain, mergedLog.walkChain sampleWs none none = .ok chain ∧
    ¬ CausalOrder mergedLog.store (sampleOid 4) (chain.reverse.map Prod.fst) := by
  obtain ⟨chain, hwalk⟩ :
      ∃ chain, mergedLog.store.walk none none [sampleOid 4] ∅ [] = .ok chain :=
    exists_walk fun oid hoid => by
      rw [List.mem_singleton.mp hoid]
      exact Finmap.mem_insert.mpr (.inl rfl)
  refine ⟨chain, ?_, fun hcausal => ?_⟩
  · have hhead : mergedLog.readHead sampleWs = some (sampleOid 4) := OpLog.readHead_appended
    rw [OpLog.walkChain, hhead]
    exact hwalk
  have hmerge : mergedLog.store.nodes.lookup (sampleOid 4) = some sampleMergeOp := rfl
  have hsecond : mergedLog.store.ParentOf (sampleOid 1) (sampleOid 2) :=
    ⟨sampleDescribe, rfl, List.mem_cons_self⟩
  have hanc : mergedLog.store.IsAncestor (sampleOid 2) (sampleOid 4) :=
    NodeStore.ParentOf.isAncestor ⟨sampleMergeOp, hmerge, by simp [sampleMergeOp]⟩
  -- The first parent of the merge is the first operation.
  have hroot : PathTo mergedLog.store.parentsOf (sampleOid 4) [] (sampleOid 4) := .root
  have hpath : PathTo mergedLog.store.parentsOf (sampleOid 4) [0] (sampleOid 1) :=
    hroot.step (by rw [OpStore.parentsOf_eq hmerge]; rfl)
  rw [List.map_reverse] at hcausal
  obtain ⟨path, hpath', hbefore⟩ := (causalOrder_iff (search_of_walk (fun oid => by simp)
    hwalk)).mp hcausal _ _ hanc hsecond [0] hpath
  rcases before_iff.mp hbefore with hshort | ⟨hlength, hlt⟩
  · obtain rfl : path = [] := List.length_eq_zero_iff.mp (by simpa using hshort)
    exact absurd (pathTo_nil.mp hpath') (by decide)
  · obtain ⟨i, rfl⟩ := List.length_eq_one_iff.mp hlength
    have hbefore : BreadthFirst.Before ([] ++ [i]) ([] ++ [0]) := hbefore
    rcases List.shortlex_def.mp hbefore with h | ⟨-, h⟩
    · simp at h
    · exact absurd (List.lex_singleton_iff i 0 |>.mp h) (Nat.not_lt_zero i)

end Maw.Oplog
