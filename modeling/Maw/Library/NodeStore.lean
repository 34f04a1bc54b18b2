import Mathlib.Logic.Relation
import Mathlib.Order.WellFounded
import Maw.Library.FiniteMap

/-!
# Stores of nodes that name their parents

A store keeps nodes under ids, each node naming the ids of its parents. A node is added after its
parents, under an id that is not in use, so the parents of the stored nodes are stored and no
chain of parents comes back to where it started. The store only grows: what was an ancestor stays
one.

## Main definitions

* `NodeStore` — stored nodes, closed under parents and without cycles.
* `NodeStore.IsAncestor` — reachability along parents.
* `NodeStore.Adds` — the store after one more node; `NodeStore.Grows` — a store and a larger one.

## Main results

* `NodeStore.IsAncestor.antisymm` — ancestry is an order.
* `NodeStore.Adds.isAncestor` — a larger store has the same ancestors.
-/

universe u v

/-- Stored nodes, closed under parents and without cycles. -/
structure NodeStore (ι : Type u) (κ : Type v) (parents : κ → List ι) [DecidableEq ι] where
  nodes : FiniteMap ι κ
  closed : ∀ i node, nodes.lookup i = some node → ∀ j ∈ parents node, j ∈ nodes
  wellFounded : WellFounded fun j i => ∃ node, nodes.lookup i = some node ∧ j ∈ parents node

namespace NodeStore

variable {ι : Type u} {κ : Type v} {parents : κ → List ι} [DecidableEq ι]

/-- The store without nodes. -/
def empty : NodeStore ι κ parents where
  nodes := ∅
  closed i node h := by simp at h
  wellFounded := by
    refine ⟨fun i => ⟨i, ?_⟩⟩
    rintro j ⟨node, h, -⟩
    simp at h

variable (s : NodeStore ι κ parents)

/-- The node `i` is stored and names `j` as a parent. -/
def ParentOf (j i : ι) : Prop := ∃ node, s.nodes.lookup i = some node ∧ j ∈ parents node

/-- One can get from `i` to `j` along parents. -/
def IsAncestor (j i : ι) : Prop := Relation.ReflTransGen s.ParentOf j i

variable {s} {s' : NodeStore ι κ parents} {i j k : ι} {node : κ}

theorem ParentOf.mem (h : s.ParentOf j i) : j ∈ s.nodes := by
  obtain ⟨node, hnode, hj⟩ := h
  exact s.closed i node hnode j hj

theorem IsAncestor.refl (i : ι) : s.IsAncestor i i := Relation.ReflTransGen.refl

theorem IsAncestor.trans (h : s.IsAncestor i j) (h' : s.IsAncestor j k) : s.IsAncestor i k :=
  Relation.ReflTransGen.trans h h'

theorem ParentOf.isAncestor (h : s.ParentOf j i) : s.IsAncestor j i :=
  Relation.ReflTransGen.single h

theorem transGen_irrefl (i : ι) : ¬ Relation.TransGen s.ParentOf i i :=
  fun h => (s.wellFounded.transGen.irrefl).irrefl i h

/-- Two nodes that are ancestors of each other are the same. -/
theorem IsAncestor.antisymm (h : s.IsAncestor i j) (h' : s.IsAncestor j i) : i = j := by
  rcases Relation.reflTransGen_iff_eq_or_transGen.mp h with heq | hlt
  · exact heq.symm
  · exact absurd (hlt.trans_left h') (transGen_irrefl i)

/-- An ancestor of a node other than itself is an ancestor of one of its parents. -/
theorem IsAncestor.of_ne (h : s.IsAncestor j i) (hne : j ≠ i) :
    ∃ k, s.ParentOf k i ∧ s.IsAncestor j k := by
  rcases Relation.ReflTransGen.cases_tail h with heq | ⟨k, hjk, hki⟩
  · exact absurd heq.symm hne
  · exact ⟨k, hki, hjk⟩

/-- The ancestors of a stored node are stored. -/
theorem IsAncestor.mem (h : s.IsAncestor j i) (hi : i ∈ s.nodes) : j ∈ s.nodes := by
  induction h using Relation.ReflTransGen.head_induction_on with
  | refl => exact hi
  | head h _ _ => exact h.mem

/-- One more node, after its parents and under a new id. -/
def add (s : NodeStore ι κ parents) (i : ι) (node : κ) (hnew : i ∉ s.nodes)
    (hparents : ∀ j ∈ parents node, j ∈ s.nodes) : NodeStore ι κ parents where
  nodes := s.nodes.insert i node
  closed k node' hk j hj := by
    rw [Finmap.mem_insert]
    rw [FiniteMap.lookup_insert] at hk
    split_ifs at hk with he
    · obtain rfl := Option.some.inj hk
      exact .inr (hparents j hj)
    · exact .inr (s.closed k node' hk j hj)
  wellFounded := by
    -- The nodes before are accessible as they were: none of them names the new id.
    have hold (k : ι) (hk : k ∈ s.nodes) : Acc (fun j i' => ∃ node',
        (s.nodes.insert i node).lookup i' = some node' ∧ j ∈ parents node') k := by
      induction k using s.wellFounded.induction with
      | h k ih =>
        refine ⟨k, ?_⟩
        rintro j ⟨node', hnode', hj⟩
        have hki : k ≠ i := fun he => hnew (he ▸ hk)
        rw [FiniteMap.lookup_insert, if_neg hki] at hnode'
        exact ih j ⟨node', hnode', hj⟩ (s.closed k node' hnode' j hj)
    refine ⟨fun k => ⟨k, ?_⟩⟩
    rintro j ⟨node', hnode', hj⟩
    rw [FiniteMap.lookup_insert] at hnode'
    split_ifs at hnode' with he
    · obtain rfl := Option.some.inj hnode'
      exact hold j (hparents j hj)
    · exact hold j (s.closed k node' hnode' j hj)

@[simp]
theorem mem_add {hnew : i ∉ s.nodes} {hparents : ∀ j ∈ parents node, j ∈ s.nodes} :
    k ∈ (s.add i node hnew hparents).nodes ↔ k = i ∨ k ∈ s.nodes :=
  Finmap.mem_insert

/-- The store `s'` is `s` with the node under the id; a node that is stored already stays. -/
def Adds (s : NodeStore ι κ parents) (i : ι) (node : κ) (s' : NodeStore ι κ parents) : Prop :=
  (s.nodes.lookup i = some node ∧ s' = s) ∨ ∃ hnew hparents, s' = s.add i node hnew hparents

theorem adds_add {hnew : i ∉ s.nodes} {hparents : ∀ j ∈ parents node, j ∈ s.nodes} :
    s.Adds i node (s.add i node hnew hparents) :=
  .inr ⟨hnew, hparents, rfl⟩

theorem Adds.lookup_self (h : s.Adds i node s') : s'.nodes.lookup i = some node := by
  rcases h with ⟨h, rfl⟩ | ⟨hnew, hparents, rfl⟩
  · exact h
  · exact Finmap.lookup_insert _

/-- What is stored stays stored. -/
theorem Adds.lookup (h : s.Adds i node s') {k : ι} {node' : κ}
    (hk : s.nodes.lookup k = some node') : s'.nodes.lookup k = some node' := by
  rcases h with ⟨-, rfl⟩ | ⟨hnew, hparents, rfl⟩
  · exact hk
  · have hne : k ≠ i := fun he => hnew (he ▸ FiniteMap.mem_of_lookup hk)
    rw [add, FiniteMap.lookup_insert, if_neg hne]
    exact hk

theorem Adds.mem (h : s.Adds i node s') (hk : k ∈ s.nodes) : k ∈ s'.nodes := by
  obtain ⟨node', hnode'⟩ := Finmap.mem_iff.mp hk
  exact FiniteMap.mem_of_lookup (h.lookup hnode')

theorem Adds.mem_self (h : s.Adds i node s') : i ∈ s'.nodes :=
  FiniteMap.mem_of_lookup h.lookup_self

theorem Adds.parentOf_self (h : s.Adds i node s') (hj : j ∈ parents node) : s'.ParentOf j i :=
  ⟨node, h.lookup_self, hj⟩

/-- The ancestors of a node are among any nodes that have their parents among them. -/
theorem IsAncestor.mem_of_closed {t : Set ι} (hclosed : ∀ i ∈ t, ∀ j, s.ParentOf j i → j ∈ t)
    (h : s.IsAncestor j i) (hi : i ∈ t) : j ∈ t := by
  induction h using Relation.ReflTransGen.head_induction_on with
  | refl => exact hi
  | head h _ ih => exact hclosed _ ih _ h

/-! ### Stores that grow -/

/-- What the first store holds, the second one holds. -/
def Grows (s s' : NodeStore ι κ parents) : Prop :=
  ∀ i node, s.nodes.lookup i = some node → s'.nodes.lookup i = some node

theorem Grows.refl (s : NodeStore ι κ parents) : s.Grows s := fun _ _ => id

theorem Grows.trans {s'' : NodeStore ι κ parents} (h : s.Grows s') (h' : s'.Grows s'') :
    s.Grows s'' := fun i node hnode => h' i node (h i node hnode)

theorem Adds.grows (h : s.Adds i node s') : s.Grows s' := fun _ _ => h.lookup

theorem Grows.mem (h : s.Grows s') (hk : k ∈ s.nodes) : k ∈ s'.nodes := by
  obtain ⟨node, hnode⟩ := Finmap.mem_iff.mp hk
  exact FiniteMap.mem_of_lookup (h k node hnode)

theorem Grows.parentOf (h : s.Grows s') (hji : s.ParentOf j i) : s'.ParentOf j i := by
  obtain ⟨node, hnode, hj⟩ := hji
  exact ⟨node, h i node hnode, hj⟩

theorem Grows.isAncestor (h : s.Grows s') (hjk : s.IsAncestor j k) : s'.IsAncestor j k :=
  Relation.ReflTransGen.mono (fun _ _ => h.parentOf) _ _ hjk

theorem Grows.transGen (h : s.Grows s') (hjk : Relation.TransGen s.ParentOf j k) :
    Relation.TransGen s'.ParentOf j k :=
  Relation.TransGen.mono (fun _ _ => h.parentOf) _ _ hjk

/-- A stored node has the same ancestors in the larger store. -/
theorem Grows.isAncestor_iff (h : s.Grows s') (hk : k ∈ s.nodes) :
    s'.IsAncestor j k ↔ s.IsAncestor j k := by
  refine ⟨fun hjk => ?_, h.isAncestor⟩
  induction hjk with
  | refl => exact IsAncestor.refl j
  | tail _ hbk ih =>
    obtain ⟨node', hnode', hb⟩ := hbk
    obtain ⟨node, hnode⟩ := Finmap.mem_iff.mp hk
    obtain rfl := Option.some.inj (hnode'.symm.trans (h _ _ hnode))
    have hparent : s.ParentOf _ _ := ⟨node', hnode, hb⟩
    exact (ih hparent.mem).trans hparent.isAncestor

/-- What was an ancestor stays one. -/
theorem Adds.isAncestor (h : s.Adds i node s') (hjk : s.IsAncestor j k) : s'.IsAncestor j k :=
  h.grows.isAncestor hjk

/-- A stored node gets no more ancestors. -/
theorem Adds.isAncestor_of_mem (h : s.Adds i node s') (hk : k ∈ s.nodes)
    (hjk : s'.IsAncestor j k) : s.IsAncestor j k :=
  (h.grows.isAncestor_iff hk).mp hjk

end NodeStore
