import Maw.Library.KeyedSort
import Maw.Oplog.Causal

/-!
# Pushing and pulling logs

Machines share logs through a remote. A push and a pull send the blobs that the heads name and
nothing else: the parents of an operation are named inside its JSON, which git does not follow. A
pull validates a remote head and its direct parents, compares it with the local head by walking the
operations that are stored, and adopts it, keeps the local head, or merges both.

## Main definitions

* `Replica`, `SyncState` — what a machine or the remote has; `SyncState.push`, `SyncState.pull`.
* `walkAll`, `oplogIsAncestor` — walks over blobs, some of which may be missing.
* `Survives` — new and advanced heads are adopted and can be read, and others are kept.
* `ArrivesWhole` — when they do.

## Main results

* `walkAll_eq_ok_iff` — a log is read exactly when all its operations are stored.
* `survives_iff` — when the logs survive a pull.
* `not_survives` — a log of two operations is rejected.
-/

open KeyedSort

namespace Maw.Transport

open Oplog

/-! ### Walks over stored operations -/

/-- The operations that are stored in one place; their parents may be missing. -/
abbrev Blobs := FiniteMap GitOid Operation

theorem card_sdiff_lt {blobs : Blobs} {oid : GitOid} {visited : Finset GitOid}
    (hoid : oid ∈ blobs) (hnew : oid ∉ visited) :
    (blobs.keys \ insert oid visited).card < (blobs.keys \ visited).card := by
  refine Finset.card_lt_card ⟨Finset.sdiff_subset_sdiff le_rfl (Finset.subset_insert _ _), ?_⟩
  intro hsub
  have hmem : oid ∈ blobs.keys \ visited := by
    rw [Finset.mem_sdiff, Finmap.mem_keys]
    exact ⟨hoid, hnew⟩
  exact absurd (hsub hmem) (by simp)

/-- Read the operations that the queue leads to, breadth first. -/
def walkAll (blobs : Blobs) : (queue : List GitOid) → (visited : Finset GitOid) →
    (result : List (GitOid × Operation)) → Except OpLogReadError (List (GitOid × Operation))
  | [], _, result => .ok result
  | oid :: queue, visited, result =>
    if oid ∈ visited then walkAll blobs queue visited result
    else
      match _h : blobs.lookup oid with
      | none => .error (.catFile oid)
      | some op =>
        walkAll blobs (queue ++ op.parentIds.filter (· ∉ insert oid visited))
          (insert oid visited) (result ++ [(oid, op)])
termination_by queue visited => ((blobs.keys \ visited).card, queue.length)
decreasing_by
  · exact Prod.Lex.right _ (by simp)
  · exact Prod.Lex.left _ _ (card_sdiff_lt (FiniteMap.mem_of_lookup _h) ‹_›)

/-- Whether the stack leads to an operation, depth first. -/
def oplogIsAncestor (blobs : Blobs) (ancestor : GitOid) : (stack : List GitOid) →
    (visited : Finset GitOid) → Except OpLogReadError Bool
  | [], _ => .ok false
  | current :: stack, visited =>
    if current ∈ visited then oplogIsAncestor blobs ancestor stack visited
    else if current = ancestor then .ok true
    else
      match _h : blobs.lookup current with
      | none => .error (.catFile current)
      | some op =>
        oplogIsAncestor blobs ancestor
          ((op.parentIds.filter (· ∉ insert current visited)).reverse ++ stack)
          (insert current visited)
termination_by stack visited => ((blobs.keys \ visited).card, stack.length)
decreasing_by
  · exact Prod.Lex.right _ (by simp)
  · exact Prod.Lex.left _ _ (card_sdiff_lt (FiniteMap.mem_of_lookup _h) ‹_›)

inductive AncestryRelation
  | remoteAhead
  | localAheadOrEqual
  | diverged
  deriving DecidableEq, Repr

def oplogAncestryRelation (blobs : Blobs) (here remote : GitOid) :
    Except OpLogReadError AncestryRelation := do
  if ← oplogIsAncestor blobs here [remote] ∅ then return .remoteAhead
  if ← oplogIsAncestor blobs remote [here] ∅ then return .localAheadOrEqual
  return .diverged

/-- The blobs are operations of the log. -/
def Within (blobs : Blobs) (log : OpStore) : Prop :=
  ∀ oid op, blobs.lookup oid = some op → log.nodes.lookup oid = some op

/-- All operations that lead to a head are stored. -/
def Whole (log : OpStore) (blobs : Blobs) (head : GitOid) : Prop :=
  ∀ oid, log.IsAncestor oid head → oid ∈ blobs

section Walks

variable {log : OpStore} {blobs blobs' : Blobs} {ancestor head here remote : GitOid}
  {stack queue : List GitOid} {visited : Finset GitOid} {result r : List (GitOid × Operation)}

theorem parentOf_of_within (hwithin : Within blobs log) {oid parent : GitOid} {op : Operation}
    (hop : blobs.lookup oid = some op) (hparent : parent ∈ op.parentIds) :
    log.ParentOf parent oid :=
  ⟨op, hwithin oid op hop, hparent⟩

/-- What is asked of all that the stack leads to holds of the parents of its first operation. -/
theorem forall_next {P : GitOid → Prop} (hwithin : Within blobs log) {current : GitOid}
    {op : Operation} (hop : blobs.lookup current = some op)
    (h : ∀ oid, (∃ x ∈ current :: stack, log.IsAncestor oid x) → P oid) :
    ∀ oid, (∃ x ∈ (op.parentIds.filter (· ∉ insert current visited)).reverse ++ stack,
      log.IsAncestor oid x) → P oid := by
  rintro oid ⟨x, hx, hanc⟩
  rcases List.mem_append.mp hx with hx | hx
  · have hparent := List.mem_of_mem_filter (List.mem_reverse.mp hx)
    exact h oid ⟨current, List.mem_cons_self,
      hanc.trans (parentOf_of_within hwithin hop hparent).isAncestor⟩
  · exact h oid ⟨x, List.mem_cons_of_mem _ hx, hanc⟩

/-- The walk reads nothing else than what the stack leads to. -/
theorem oplogIsAncestor_congr (hwithin : Within blobs log)
    (h : ∀ oid, (∃ x ∈ stack, log.IsAncestor oid x) → blobs'.lookup oid = blobs.lookup oid) :
    oplogIsAncestor blobs' ancestor stack visited = oplogIsAncestor blobs ancestor stack visited := by
  induction stack, visited using oplogIsAncestor.induct blobs ancestor with
  | case1 => rw [oplogIsAncestor, oplogIsAncestor]
  | case2 current stack visited hseen ih =>
    rw [oplogIsAncestor, oplogIsAncestor, if_pos hseen, if_pos hseen]
    exact ih fun oid ⟨x, hx, hanc⟩ => h oid ⟨x, List.mem_cons_of_mem _ hx, hanc⟩
  | case3 stack visited hseen =>
    rw [oplogIsAncestor, oplogIsAncestor, if_neg hseen, if_neg hseen, if_pos rfl, if_pos rfl]
  | case4 current stack visited hseen hne hnone =>
    have hnone' := (h current ⟨current, List.mem_cons_self, .refl _⟩).trans hnone
    rw [oplogIsAncestor, oplogIsAncestor, if_neg hseen, if_neg hseen, if_neg hne, if_neg hne]
    grind
  | case5 current stack visited hseen hne op hop ih =>
    have hop' := (h current ⟨current, List.mem_cons_self, .refl _⟩).trans hop
    have hrest := ih (forall_next hwithin hop h)
    rw [oplogIsAncestor, oplogIsAncestor, if_neg hseen, if_neg hseen, if_neg hne, if_neg hne]
    grind

/-- An ancestor that is found is one. -/
theorem exists_of_oplogIsAncestor (hwithin : Within blobs log)
    (h : oplogIsAncestor blobs ancestor stack visited = .ok true) :
    ∃ x ∈ stack, log.IsAncestor ancestor x := by
  induction stack, visited using oplogIsAncestor.induct blobs ancestor with
  | case1 =>
    rw [oplogIsAncestor] at h
    cases h
  | case2 current stack visited hseen ih =>
    rw [oplogIsAncestor, if_pos hseen] at h
    obtain ⟨x, hx, hanc⟩ := ih h
    exact ⟨x, List.mem_cons_of_mem _ hx, hanc⟩
  | case3 stack visited hseen => exact ⟨ancestor, List.mem_cons_self, .refl _⟩
  | case4 current stack visited hseen hne hnone =>
    rw [oplogIsAncestor, if_neg hseen, if_neg hne] at h
    grind
  | case5 current stack visited hseen hne op hop ih =>
    rw [oplogIsAncestor, if_neg hseen, if_neg hne] at h
    by_contra hnot
    have hnext := @forall_next log blobs stack visited (· ≠ ancestor) hwithin current op hop
      fun oid hoid heq => hnot (heq ▸ hoid)
    obtain ⟨x, hx, hanc⟩ := ih (by grind)
    exact hnext ancestor ⟨x, hx, hanc⟩ rfl

/-- What is visited is stored and is not the ancestor, and its parents are visited or on the
stack. -/
def Searched (log : OpStore) (blobs : Blobs) (ancestor : GitOid) (stack : List GitOid)
    (visited : Finset GitOid) : Prop :=
  ∀ oid ∈ visited, oid ∈ blobs ∧ oid ≠ ancestor ∧
    ∀ parent, log.ParentOf parent oid → parent ∈ visited ∨ parent ∈ stack

/-- A walk that does not find the ancestor has read all that the stack leads to. -/
theorem exists_searched (hwithin : Within blobs log)
    (hsearched : Searched log blobs ancestor stack visited)
    (h : oplogIsAncestor blobs ancestor stack visited = .ok false) :
    ∃ final, Searched log blobs ancestor [] final ∧ visited ⊆ final ∧ ∀ x ∈ stack, x ∈ final := by
  induction stack, visited using oplogIsAncestor.induct blobs ancestor with
  | case1 visited => exact ⟨visited, hsearched, le_rfl, by simp⟩
  | case2 current stack visited hseen ih =>
    rw [oplogIsAncestor, if_pos hseen] at h
    have hsearched' : Searched log blobs ancestor stack visited := by
      intro oid hoid
      obtain ⟨hmem, hne, hparents⟩ := hsearched oid hoid
      refine ⟨hmem, hne, fun parent hparent => ?_⟩
      rcases hparents parent hparent with hvisited | hstack
      · exact .inl hvisited
      · rcases List.mem_cons.mp hstack with rfl | hstack
        · exact .inl hseen
        · exact .inr hstack
    obtain ⟨final, hfinal, hsub, hstack⟩ := ih hsearched' h
    refine ⟨final, hfinal, hsub, fun x hx => ?_⟩
    rcases List.mem_cons.mp hx with rfl | hx
    · exact hsub hseen
    · exact hstack x hx
  | case3 stack visited hseen =>
    rw [oplogIsAncestor, if_neg hseen, if_pos rfl] at h
    cases h
  | case4 current stack visited hseen hne hnone =>
    rw [oplogIsAncestor, if_neg hseen, if_neg hne] at h
    grind
  | case5 current stack visited hseen hne op hop ih =>
    rw [oplogIsAncestor, if_neg hseen, if_neg hne] at h
    have hsearched' : Searched log blobs ancestor
        ((op.parentIds.filter (· ∉ insert current visited)).reverse ++ stack)
        (insert current visited) := by
      intro oid hoid
      have hnew (parent : GitOid) (hparent : parent ∈ op.parentIds) :
          parent ∈ insert current visited ∨
            parent ∈ (op.parentIds.filter (· ∉ insert current visited)).reverse ++ stack := by
        by_cases hin : parent ∈ insert current visited
        · exact .inl hin
        · refine .inr (List.mem_append_left _ (List.mem_reverse.mpr ?_))
          exact List.mem_filter.mpr ⟨hparent, decide_eq_true hin⟩
      rcases Finset.mem_insert.mp hoid with rfl | hoid
      · refine ⟨FiniteMap.mem_of_lookup hop, hne, fun parent hparent => ?_⟩
        obtain ⟨op', hop', hmem⟩ := hparent
        rw [hwithin _ _ hop] at hop'
        obtain rfl := Option.some.inj hop'
        exact hnew parent hmem
      · obtain ⟨hmem, hne', hparents⟩ := hsearched oid hoid
        refine ⟨hmem, hne', fun parent hparent => ?_⟩
        rcases hparents parent hparent with hvisited | hstack
        · exact .inl (Finset.mem_insert_of_mem hvisited)
        · rcases List.mem_cons.mp hstack with rfl | hstack
          · exact .inl (Finset.mem_insert_self _ _)
          · exact .inr (List.mem_append_right _ hstack)
    obtain ⟨final, hfinal, hsub, hstack⟩ := ih hsearched' (by grind)
    refine ⟨final, hfinal, fun x hx => hsub (Finset.mem_insert_of_mem hx), fun x hx => ?_⟩
    rcases List.mem_cons.mp hx with rfl | hx
    · exact hsub (Finset.mem_insert_self _ _)
    · exact hstack x (List.mem_append_right _ hx)

/-- A head that the ancestor is not found below is whole, and the ancestor is not below it. -/
theorem whole_of_oplogIsAncestor (hwithin : Within blobs log)
    (h : oplogIsAncestor blobs ancestor [head] ∅ = .ok false) :
    Whole log blobs head ∧ ¬ log.IsAncestor ancestor head := by
  obtain ⟨final, hfinal, -, hstack⟩ := exists_searched hwithin (fun oid hoid => by simp at hoid) h
  have hmem (oid : GitOid) (hanc : log.IsAncestor oid head) : oid ∈ final := by
    refine NodeStore.IsAncestor.mem_of_closed (t := fun oid => oid ∈ final) ?_ hanc
      (hstack head (List.mem_singleton_self head))
    intro oid hoid parent hparent
    exact ((hfinal oid hoid).2.2 parent hparent).resolve_right List.not_mem_nil
  exact ⟨fun oid hanc => (hfinal oid (hmem oid hanc)).1,
    fun hanc => (hfinal ancestor (hmem ancestor hanc)).2.1 rfl⟩

/-- A walk over a whole log does not fail. -/
theorem exists_oplogIsAncestor (hwithin : Within blobs log)
    (h : ∀ oid, (∃ x ∈ stack, log.IsAncestor oid x) → oid ∈ blobs) :
    ∃ b, oplogIsAncestor blobs ancestor stack visited = .ok b := by
  induction stack, visited using oplogIsAncestor.induct blobs ancestor with
  | case1 => exact ⟨false, by rw [oplogIsAncestor]⟩
  | case2 current stack visited hseen ih =>
    rw [oplogIsAncestor, if_pos hseen]
    exact ih fun oid ⟨x, hx, hanc⟩ => h oid ⟨x, List.mem_cons_of_mem _ hx, hanc⟩
  | case3 stack visited hseen => exact ⟨true, by rw [oplogIsAncestor, if_neg hseen, if_pos rfl]⟩
  | case4 current stack visited hseen hne hnone =>
    have hmem := h current ⟨current, List.mem_cons_self, .refl _⟩
    exact absurd hmem (Finmap.lookup_eq_none.mp hnone)
  | case5 current stack visited hseen hne op hop ih =>
    obtain ⟨b, hb⟩ := ih (forall_next hwithin hop h)
    refine ⟨b, ?_⟩
    rw [oplogIsAncestor, if_neg hseen, if_neg hne]
    grind

/-- Below a head that is whole the walk finds exactly the ancestors. -/
theorem oplogIsAncestor_eq_ok (hwithin : Within blobs log) (h : Whole log blobs head) :
    oplogIsAncestor blobs ancestor [head] ∅ = .ok true ∧ log.IsAncestor ancestor head ∨
      oplogIsAncestor blobs ancestor [head] ∅ = .ok false ∧ ¬ log.IsAncestor ancestor head := by
  obtain ⟨b, hb⟩ : ∃ b, oplogIsAncestor blobs ancestor [head] ∅ = .ok b :=
    exists_oplogIsAncestor hwithin
      fun oid ⟨x, hx, hanc⟩ => h oid (List.mem_singleton.mp hx ▸ hanc)
  cases b with
  | true =>
    obtain ⟨x, hx, hanc⟩ := exists_of_oplogIsAncestor hwithin hb
    exact .inl ⟨hb, List.mem_singleton.mp hx ▸ hanc⟩
  | false => exact .inr ⟨hb, (whole_of_oplogIsAncestor hwithin hb).2⟩

/-! ### Ancestry and whole logs -/

theorem oplogAncestryRelation_congr (hwithin : Within blobs log)
    (h : ∀ oid, (log.IsAncestor oid here ∨ log.IsAncestor oid remote) →
      blobs'.lookup oid = blobs.lookup oid) :
    oplogAncestryRelation blobs' here remote = oplogAncestryRelation blobs here remote := by
  have hremote := @oplogIsAncestor_congr log blobs blobs' here [remote] ∅ hwithin
    fun oid ⟨x, hx, hanc⟩ => h oid (.inr (List.mem_singleton.mp hx ▸ hanc))
  have hhere := @oplogIsAncestor_congr log blobs blobs' remote [here] ∅ hwithin
    fun oid ⟨x, hx, hanc⟩ => h oid (.inl (List.mem_singleton.mp hx ▸ hanc))
  rw [oplogAncestryRelation, oplogAncestryRelation, hremote, hhere]

/-- The remote is ahead of a local head that is below it, if the remote log is whole. -/
theorem relation_of_isAncestor (hwithin : Within blobs log) (hwhole : Whole log blobs remote)
    (h : log.IsAncestor here remote) :
    oplogAncestryRelation blobs here remote = .ok .remoteAhead := by
  rcases oplogIsAncestor_eq_ok hwithin hwhole with ⟨hok, -⟩ | ⟨-, hnot⟩
  · rw [oplogAncestryRelation, hok]
    rfl
  · exact absurd h hnot

/-- If the remote is found ahead, the local head is below it. -/
theorem isAncestor_of_remoteAhead (hwithin : Within blobs log)
    (h : oplogAncestryRelation blobs here remote = .ok .remoteAhead) :
    log.IsAncestor here remote := by
  rw [oplogAncestryRelation] at h
  obtain ⟨b, hb, h⟩ := ExceptRun.bind_eq_ok.mp h
  cases b with
  | true =>
    obtain ⟨x, hx, hanc⟩ := exists_of_oplogIsAncestor hwithin hb
    exact List.mem_singleton.mp hx ▸ hanc
  | false =>
    obtain ⟨c, -, h⟩ := ExceptRun.bind_eq_ok.mp h
    cases c with
    | true => cases h
    | false => cases h

/-- If the heads are found to have diverged, the remote log is whole. -/
theorem whole_of_diverged (hwithin : Within blobs log)
    (h : oplogAncestryRelation blobs here remote = .ok .diverged) : Whole log blobs remote := by
  rw [oplogAncestryRelation] at h
  obtain ⟨b, hb, h⟩ := ExceptRun.bind_eq_ok.mp h
  cases b with
  | true => cases h
  | false => exact (whole_of_oplogIsAncestor hwithin hb).1

/-- What is read from blobs is read from the log. -/
theorem walk_of_walkAll (hwithin : Within blobs log)
    (h : walkAll blobs queue visited result = .ok r) :
    log.walk none none queue visited result = .ok r := by
  induction queue, visited, result using walkAll.induct blobs with
  | case1 =>
    rw [walkAll] at h
    rw [OpStore.walk]
    exact h
  | case2 oid queue visited result hseen ih =>
    rw [walkAll, if_pos hseen] at h
    rw [OpStore.walk, if_neg (by simp), if_pos hseen]
    exact ih h
  | case3 oid queue visited result hseen hnone =>
    rw [walkAll, if_neg hseen] at h
    grind
  | case4 oid queue visited result hseen op hop ih =>
    have hop' := hwithin _ _ hop
    rw [walkAll, if_neg hseen] at h
    rw [OpStore.walk, if_neg (by simp), if_neg hseen]
    grind

/-- All that is read is stored. -/
theorem mem_of_walkAll (hresult : ∀ e ∈ result, e.1 ∈ blobs)
    (h : walkAll blobs queue visited result = .ok r) : ∀ e ∈ r, e.1 ∈ blobs := by
  induction queue, visited, result using walkAll.induct blobs with
  | case1 =>
    rw [walkAll] at h
    exact Except.ok.inj h ▸ hresult
  | case2 oid queue visited result hseen ih =>
    rw [walkAll, if_pos hseen] at h
    exact ih hresult h
  | case3 oid queue visited result hseen hnone =>
    rw [walkAll, if_neg hseen] at h
    grind
  | case4 oid queue visited result hseen op hop ih =>
    rw [walkAll, if_neg hseen] at h
    refine ih (fun e he => ?_) (by grind)
    rcases List.mem_append.mp he with he | he
    · exact hresult e he
    · obtain rfl := List.mem_singleton.mp he
      exact FiniteMap.mem_of_lookup hop

theorem exists_walkAll (hwithin : Within blobs log)
    (h : ∀ oid, (∃ x ∈ queue, log.IsAncestor oid x) → oid ∈ blobs) :
    ∃ chain, walkAll blobs queue visited result = .ok chain := by
  induction queue, visited, result using walkAll.induct blobs with
  | case1 => exact ⟨_, by rw [walkAll]⟩
  | case2 oid queue visited result hseen ih =>
    rw [walkAll, if_pos hseen]
    exact ih fun oid ⟨x, hx, hanc⟩ => h oid ⟨x, List.mem_cons_of_mem _ hx, hanc⟩
  | case3 oid queue visited result hseen hnone =>
    exact absurd (h oid ⟨oid, List.mem_cons_self, .refl _⟩) (Finmap.lookup_eq_none.mp hnone)
  | case4 oid queue visited result hseen op hop ih =>
    obtain ⟨chain, hchain⟩ := ih fun x ⟨y, hy, hanc⟩ => by
      rcases List.mem_append.mp hy with hy | hy
      · exact h x ⟨y, List.mem_cons_of_mem _ hy, hanc⟩
      · have hparent := parentOf_of_within hwithin hop (List.mem_of_mem_filter hy)
        exact h x ⟨oid, List.mem_cons_self, hanc.trans hparent.isAncestor⟩
    refine ⟨chain, ?_⟩
    rw [walkAll, if_neg hseen]
    grind

/-- A log is read from blobs, and then as it is, exactly when it is whole. -/
theorem walkAll_eq_ok_iff (hwithin : Within blobs log) :
    (∃ chain, walkAll blobs [head] ∅ [] = .ok chain ∧ log.walk none none [head] ∅ [] = .ok chain) ↔
      Whole log blobs head := by
  constructor
  · rintro ⟨chain, hchain, hwalk⟩ oid hanc
    have hsearch := search_of_walk (fun oid => by simp) hwalk
    have hmem := hsearch.mem_iff.mpr (exists_pathTo_iff.mpr hanc)
    obtain ⟨e, he, rfl⟩ := List.mem_map.mp hmem
    exact mem_of_walkAll (by simp) hchain e he
  · intro hwhole
    obtain ⟨chain, hchain⟩ : ∃ chain, walkAll blobs [head] ∅ [] = .ok chain :=
      exists_walkAll hwithin fun oid ⟨x, hx, hanc⟩ => hwhole oid (List.mem_singleton.mp hx ▸ hanc)
    exact ⟨chain, hchain, walk_of_walkAll hwithin hchain⟩

end Walks

/-! ### Replicas -/

/-- What a machine or the remote has: stored operations, and the heads of logs. -/
structure Replica where
  blobs : Blobs
  heads : FiniteMap NamedWorkspace GitOid

namespace Replica

variable (r : Replica)

def setHead (ws : NamedWorkspace) (oid : GitOid) : Replica := { r with heads := r.heads.insert ws oid }

/-- The blobs that git sends: those that heads name. -/
def headBlobs : Blobs :=
  r.blobs.filterKeys fun oid => ∃ ws ∈ r.heads.keys, r.heads.lookup ws = some oid

/-- The heads in the order of their refs. -/
def headRefs : List (NamedWorkspace × GitOid) :=
  (inOrderOf NamedWorkspace.asStr NamedWorkspace.asStr_injective r.heads.keys).filterMap fun ws =>
    (r.heads.lookup ws).map fun oid => (ws, oid)

/-- What is stored is of the log, and the heads are stored. -/
structure Of (log : OpStore) : Prop where
  within : Within r.blobs log
  heads_mem : ∀ ws oid, r.heads.lookup ws = some oid → oid ∈ r.blobs

end Replica

/-! ### Pulling -/

inductive Rejection
  | missing (oid : GitOid)
  | parentMissing (parent oid : GitOid)
  deriving DecidableEq, Repr

/-- Validate the blob of a remote head and those of its direct parents. -/
def validateRemoteOpBlob (blobs : Blobs) (oid : GitOid) : Except Rejection Unit :=
  match blobs.lookup oid with
  | none => .error (.missing oid)
  | some op =>
    match op.parentIds.find? (· ∉ blobs) with
    | some parent => .error (.parentMissing parent oid)
    | none => .ok ()

inductive RefMergeResult
  | newFromRemote
  | upToDate
  | localAhead
  | fastForward
  | merged
  | securityRejected (reason : Rejection)
  deriving DecidableEq, Repr

inductive TransportError
  | ancestry (e : OpLogReadError)
  | writeMergeOp
  deriving DecidableEq, Repr

/-- The operation that joins two heads. -/
def transportMergeOp (ws : NamedWorkspace) (timestamp : String) (localHead remoteHead : GitOid) :
    Operation where
  parentIds := [localHead, remoteHead]
  workspaceId := ws
  timestamp := timestamp
  payload := .annotate "transport-merge" ⟨[("local_head", .string localHead.asStr),
    ("merge_kind", .string "transport-pull"), ("remote_head", .string remoteHead.asStr)]⟩

/-- The blob that a merge operation is stored as, with its timestamp, if it can be written. -/
abbrev WriteMergeOp := NamedWorkspace → GitOid → GitOid → Option (GitOid × String)

/-- Store an operation that joins two heads, and move the head to it. -/
def createTransportMergeOp (write : WriteMergeOp) (r : Replica) (ws : NamedWorkspace)
    (localHead remoteHead : GitOid) : Option Replica :=
  (write ws localHead remoteHead).map fun (oid, timestamp) =>
    { r with blobs := r.blobs.insert oid (transportMergeOp ws timestamp localHead remoteHead) }.setHead
      ws oid

/-- Merge one remote head. -/
def mergeHead (write : WriteMergeOp) (r : Replica) (ws : NamedWorkspace) (remoteOid : GitOid) :
    Except TransportError (Replica × RefMergeResult) :=
  match validateRemoteOpBlob r.blobs remoteOid with
  | .error reason => .ok (r, .securityRejected reason)
  | .ok () =>
    match r.heads.lookup ws with
    | none => .ok (r.setHead ws remoteOid, .newFromRemote)
    | some localOid =>
      if localOid = remoteOid then .ok (r, .upToDate)
      else
        match oplogAncestryRelation r.blobs localOid remoteOid with
        | .error e => .error (.ancestry e)
        | .ok .localAheadOrEqual => .ok (r, .localAhead)
        | .ok .remoteAhead => .ok (r.setHead ws remoteOid, .fastForward)
        | .ok .diverged =>
          match createTransportMergeOp write r ws localOid remoteOid with
          | none => .error .writeMergeOp
          | some r => .ok (r, .merged)

/-- Merge the remote heads in their order, until one fails; heads that were written stay. -/
def mergeHeadRefs (write : WriteMergeOp) (r : Replica) : List (NamedWorkspace × GitOid) →
    Replica × Except TransportError (List (NamedWorkspace × RefMergeResult))
  | [] => (r, .ok [])
  | (ws, remoteOid) :: remoteHeads =>
    match mergeHead write r ws remoteOid with
    | .error e => (r, .error e)
    | .ok (r, result) =>
      let (r, results) := mergeHeadRefs write r remoteHeads
      (r, results.map fun results => (ws, result) :: results)

/-- Fetch the remote heads and their blobs. -/
def fetch (r remote : Replica) : Replica := { r with blobs := r.blobs ∪ remote.headBlobs }

def pullManifoldRefs (write : WriteMergeOp) (r remote : Replica) :
    Replica × Except TransportError (List (NamedWorkspace × RefMergeResult)) :=
  mergeHeadRefs write (fetch r remote) remote.headRefs

/-! ### Pushing -/

/-- Push the epoch, which the remote may reject, and then the heads by force. -/
def pushManifoldRefs (epochAccepted : Bool) (r remote : Replica) : Replica :=
  if epochAccepted then
    { blobs := remote.blobs ∪ r.headBlobs, heads := r.heads ∪ remote.heads }
  else remote

/-! ### What a pull does to one log -/

section MergeHead

variable {log : OpStore} {blobs blobs' : Blobs} {r r' : Replica} {ws : NamedWorkspace}
  {remoteOid localOid : GitOid} {write : WriteMergeOp} {result : RefMergeResult}

theorem validateRemoteOpBlob_congr (hwithin : Within blobs log)
    (h : ∀ oid, log.IsAncestor oid remoteOid → blobs'.lookup oid = blobs.lookup oid) :
    validateRemoteOpBlob blobs' remoteOid = validateRemoteOpBlob blobs remoteOid := by
  rw [validateRemoteOpBlob, validateRemoteOpBlob, h remoteOid (.refl _)]
  cases hop : blobs.lookup remoteOid with
  | none => rfl
  | some op =>
    have hmem (parent : GitOid) (hparent : parent ∈ op.parentIds) :
        parent ∉ blobs' ↔ parent ∉ blobs := by
      rw [← Finmap.lookup_eq_none, ← Finmap.lookup_eq_none,
        h parent (parentOf_of_within hwithin hop hparent).isAncestor]
    have hfind : op.parentIds.find? (· ∉ blobs') = op.parentIds.find? (· ∉ blobs) := by
      rw [← List.head?_filter, ← List.head?_filter]
      exact congrArg List.head? (List.filter_congr fun parent hparent => by
        simp only [hmem parent hparent])
    simp only [hfind]

theorem validateRemoteOpBlob_of_whole (hwithin : Within blobs log)
    (h : Whole log blobs remoteOid) : validateRemoteOpBlob blobs remoteOid = .ok () := by
  obtain ⟨op, hop⟩ := Finmap.mem_iff.mp (h remoteOid (.refl _))
  have hfind : op.parentIds.find? (· ∉ blobs) = none := by
    rw [List.find?_eq_none]
    intro parent hparent hmissing
    exact of_decide_eq_true hmissing
      (h parent (parentOf_of_within hwithin hop hparent).isAncestor)
  simp only [validateRemoteOpBlob, hop, hfind]

/-- A remote head fails if the local one differs and cannot be compared, or if the heads diverged and
no merge operation can be written. -/
def Fails (write : WriteMergeOp) (r : Replica) (ws : NamedWorkspace) (remoteOid : GitOid) : Prop :=
  validateRemoteOpBlob r.blobs remoteOid = .ok () ∧
    ∃ localOid, r.heads.lookup ws = some localOid ∧ localOid ≠ remoteOid ∧
      ((∃ e, oplogAncestryRelation r.blobs localOid remoteOid = .error e) ∨
        oplogAncestryRelation r.blobs localOid remoteOid = .ok .diverged ∧
          write ws localOid remoteOid = none)

/-- What merging one head does. -/
theorem mergeHead_cases : Fails write r ws remoteOid ∧
      (∃ e, mergeHead write r ws remoteOid = .error e) ∨
    ¬ Fails write r ws remoteOid ∧ ∃ later result,
      mergeHead write r ws remoteOid = .ok (later, result) ∧
        (later = r ∨
          (later = r.setHead ws remoteOid ∧ validateRemoteOpBlob r.blobs remoteOid = .ok () ∧
            (r.heads.lookup ws = none ∨ ∃ localOid, r.heads.lookup ws = some localOid ∧
              localOid ≠ remoteOid ∧
                oplogAncestryRelation r.blobs localOid remoteOid = .ok .remoteAhead)) ∨
          ∃ localOid, r.heads.lookup ws = some localOid ∧
            oplogAncestryRelation r.blobs localOid remoteOid = .ok .diverged ∧
              createTransportMergeOp write r ws localOid remoteOid = some later) := by
  rw [mergeHead, Fails]
  cases hvalid : validateRemoteOpBlob r.blobs remoteOid with
  | error reason => exact .inr ⟨by simp, r, .securityRejected reason, rfl, .inl rfl⟩
  | ok u =>
    cases hhead : r.heads.lookup ws with
    | none => exact .inr ⟨by simp, _, .newFromRemote, rfl, .inr (.inl ⟨rfl, rfl, .inl rfl⟩)⟩
    | some localOid =>
      by_cases heq : localOid = remoteOid
      · subst heq
        exact .inr ⟨by simp, r, .upToDate, if_pos rfl, .inl rfl⟩
      · simp only [if_neg heq, Option.some.injEq]
        cases hrelation : oplogAncestryRelation r.blobs localOid remoteOid with
        | error e => exact .inl ⟨⟨trivial, localOid, rfl, heq, .inl ⟨e, hrelation⟩⟩, .ancestry e, rfl⟩
        | ok relation =>
          cases relation with
          | localAheadOrEqual =>
            refine .inr ⟨?_, r, .localAhead, rfl, .inl rfl⟩
            rintro ⟨-, _, rfl, -, h⟩
            simp [hrelation] at h
          | remoteAhead =>
            refine .inr ⟨?_, _, .fastForward, rfl,
              .inr (.inl ⟨rfl, trivial, .inr ⟨localOid, rfl, heq, hrelation⟩⟩)⟩
            rintro ⟨-, _, rfl, -, h⟩
            simp [hrelation] at h
          | diverged =>
            cases hwrite : write ws localOid remoteOid with
            | none =>
              simp only [createTransportMergeOp, hwrite, Option.map_none]
              exact .inl ⟨⟨trivial, localOid, rfl, heq, .inr ⟨hrelation, hwrite⟩⟩,
                .writeMergeOp, rfl⟩
            | some minted =>
              simp only [createTransportMergeOp, hwrite, Option.map_some]
              refine .inr ⟨?_, _, .merged, rfl, .inr (.inr ⟨localOid, rfl, hrelation, by simp [hwrite]⟩)⟩
              rintro ⟨-, _, rfl, -, h⟩
              simp [hrelation, hwrite] at h

/-- Merging one head leaves the others alone. -/
theorem mergeHead_frame (h : mergeHead write r ws remoteOid = .ok (r', result))
    {other : NamedWorkspace} (hne : other ≠ ws) :
    r'.heads.lookup other = r.heads.lookup other := by
  rcases @mergeHead_cases r ws remoteOid write with ⟨-, e, he⟩ | ⟨-, later, result', hok, hcases⟩
  · rw [he] at h
    cases h
  · rw [h] at hok
    obtain ⟨rfl, rfl⟩ := Prod.mk.inj (Except.ok.inj hok)
    rcases hcases with rfl | ⟨rfl, -⟩ | ⟨localOid, -, -, hcreate⟩
    · rfl
    · exact Finmap.lookup_insert_of_ne _ hne
    · obtain ⟨minted, -, rfl⟩ := Option.map_eq_some_iff.mp hcreate
      exact Finmap.lookup_insert_of_ne _ hne

end MergeHead

/-! ### Pulls of all logs -/

/-- The heads that a pull compares. -/
def IsHead (r remote : Replica) (head : GitOid) : Prop :=
  (∃ ws, r.heads.lookup ws = some head) ∨ ∃ ws, remote.heads.lookup ws = some head

/-- How merge operations are stored: under the id of their contents, which is new. -/
structure Mint (log : OpStore) (r remote : Replica) where
  write : WriteMergeOp
  write_op : ∀ ws localOid remoteOid oid timestamp,
    write ws localOid remoteOid = some (oid, timestamp) →
      log.nodes.lookup oid = some (transportMergeOp ws timestamp localOid remoteOid)
  write_new : ∀ ws localOid remoteOid oid timestamp head,
    write ws localOid remoteOid = some (oid, timestamp) → IsHead r remote head →
      ¬ log.IsAncestor oid head

/-- While heads are merged, what is stored is of the log, and the logs of the compared heads are
stored as they were fetched. -/
structure Stage (log : OpStore) (r remote later : Replica) : Prop where
  within : Within later.blobs log
  agrees : ∀ oid head, IsHead r remote head → log.IsAncestor oid head →
    later.blobs.lookup oid = (fetch r remote).blobs.lookup oid

section Pull

variable {log : OpStore} {r remote later final : Replica} {ws : NamedWorkspace}
  {remoteOid localOid : GitOid} {mint : Mint log r remote} {result : RefMergeResult}
  {remoteHeads : List (NamedWorkspace × GitOid)}

theorem within_fetch (hr : r.Of log) (hremote : remote.Of log) :
    Within (fetch r remote).blobs log := by
  intro oid op hop
  rw [fetch, FiniteMap.lookup_union] at hop
  rcases Option.or_eq_some_iff.mp hop with hop | ⟨-, hop⟩
  · exact hr.within oid op hop
  · rw [Replica.headBlobs, FiniteMap.lookup_filterKeys] at hop
    split_ifs at hop
    exact hremote.within oid op hop

theorem stage_fetch (hr : r.Of log) (hremote : remote.Of log) :
    Stage log r remote (fetch r remote) :=
  ⟨within_fetch hr hremote, fun _ _ _ _ => rfl⟩

theorem Stage.setHead (h : Stage log r remote later) (ws : NamedWorkspace) (oid : GitOid) :
    Stage log r remote (later.setHead ws oid) :=
  ⟨h.within, h.agrees⟩

theorem Stage.createTransportMergeOp (h : Stage log r remote later)
    (hcreate : createTransportMergeOp mint.write later ws localOid remoteOid = some final) :
    Stage log r remote final := by
  obtain ⟨⟨oid, timestamp⟩, hwrite, rfl⟩ := Option.map_eq_some_iff.mp hcreate
  refine @Stage.setHead log r remote ⟨_, later.heads⟩ ⟨fun other op hop => ?_, ?_⟩ ws oid
  · rw [FiniteMap.lookup_insert] at hop
    split_ifs at hop with heq
    · rw [heq, ← hop]
      exact mint.write_op ws localOid remoteOid oid timestamp hwrite
    · exact h.within other op hop
  · intro other head hhead hanc
    have hne : other ≠ oid := by
      rintro rfl
      exact mint.write_new ws localOid remoteOid other timestamp head hwrite hhead hanc
    rw [FiniteMap.lookup_insert, if_neg hne]
    exact h.agrees other head hhead hanc

theorem Stage.mergeHead (h : Stage log r remote later)
    (hmerge : mergeHead mint.write later ws remoteOid = .ok (final, result)) :
    Stage log r remote final := by
  rcases @mergeHead_cases later ws remoteOid mint.write with
    ⟨-, e, he⟩ | ⟨-, later', result', hok, hcases⟩
  · rw [he] at hmerge
    cases hmerge
  · rw [hmerge] at hok
    obtain ⟨rfl, rfl⟩ := Prod.mk.inj (Except.ok.inj hok)
    rcases hcases with rfl | ⟨rfl, -⟩ | ⟨localOid, -, -, hcreate⟩
    · exact h
    · exact h.setHead ws remoteOid
    · exact h.createTransportMergeOp hcreate

/-- Whether a remote head fails does not depend on the heads before it. -/
theorem Stage.fails_iff (h : Stage log r remote later) (hr : r.Of log) (hremote : remote.Of log)
    (hhead : remote.heads.lookup ws = some remoteOid)
    (hlocal : later.heads.lookup ws = r.heads.lookup ws) :
    Fails mint.write later ws remoteOid ↔ Fails mint.write (fetch r remote) ws remoteOid := by
  have hwithin := within_fetch hr hremote
  have hvalid : validateRemoteOpBlob later.blobs remoteOid =
      validateRemoteOpBlob (fetch r remote).blobs remoteOid :=
    validateRemoteOpBlob_congr hwithin fun oid => h.agrees oid remoteOid (.inr ⟨ws, hhead⟩)
  rw [Fails, Fails, hvalid, hlocal]
  refine and_congr_right fun _ => exists_congr fun localOid => and_congr_right fun hlocalOid => ?_
  have hrelation : oplogAncestryRelation later.blobs localOid remoteOid =
      oplogAncestryRelation (fetch r remote).blobs localOid remoteOid := by
    refine oplogAncestryRelation_congr hwithin fun oid hoid => ?_
    rcases hoid with hoid | hoid
    · exact h.agrees oid localOid (.inl ⟨ws, hlocalOid⟩) hoid
    · exact h.agrees oid remoteOid (.inr ⟨ws, hhead⟩) hoid
  rw [hrelation]

theorem Stage.whole_iff (h : Stage log r remote later)
    (hhead : remote.heads.lookup ws = some remoteOid) :
    Whole log later.blobs remoteOid ↔ Whole log (fetch r remote).blobs remoteOid := by
  refine forall₂_congr fun oid hanc => ?_
  rw [← Finmap.lookup_isSome, ← Finmap.lookup_isSome, h.agrees oid remoteOid (.inr ⟨ws, hhead⟩) hanc]

theorem Stage.mergeHeadRefs (h : Stage log r remote later) :
    Stage log r remote (mergeHeadRefs mint.write later remoteHeads).1 := by
  induction remoteHeads generalizing later with
  | nil => exact h
  | cons e remoteHeads ih =>
    rw [Transport.mergeHeadRefs]
    cases hmerge : Transport.mergeHead mint.write later e.1 e.2 with
    | error _ => exact h
    | ok merged =>
      obtain ⟨next, result⟩ := merged
      exact ih (h.mergeHead hmerge)

theorem mergeHeadRefs_frame {write : WriteMergeOp} (h : ∀ e ∈ remoteHeads, e.1 ≠ ws) :
    (mergeHeadRefs write later remoteHeads).1.heads.lookup ws = later.heads.lookup ws := by
  induction remoteHeads generalizing later with
  | nil => rfl
  | cons e remoteHeads ih =>
    rw [mergeHeadRefs]
    cases hmerge : mergeHead write later e.1 e.2 with
    | error _ => rfl
    | ok merged =>
      obtain ⟨next, result⟩ := merged
      have hrest : (mergeHeadRefs write next remoteHeads).1.heads.lookup ws =
          next.heads.lookup ws := ih fun e he => h e (List.mem_cons_of_mem _ he)
      exact hrest.trans (mergeHead_frame hmerge (h e List.mem_cons_self).symm)

/-- What becomes of one head: it stays if a head before it fails, and is merged otherwise. -/
theorem mergeHeadRefs_head (hr : r.Of log) (hremote : remote.Of log)
    (hstage : Stage log r remote later) (hnodup : (remoteHeads.map Prod.fst).Nodup)
    (hremoteHeads : ∀ e ∈ remoteHeads, remote.heads.lookup e.1 = some e.2)
    (hheads : ∀ e ∈ remoteHeads, later.heads.lookup e.1 = r.heads.lookup e.1)
    (hmem : (ws, remoteOid) ∈ remoteHeads) :
    (∃ e ∈ remoteHeads.takeWhile fun e => e.1 ≠ ws, Fails mint.write (fetch r remote) e.1 e.2) ∧
        (mergeHeadRefs mint.write later remoteHeads).1.heads.lookup ws = r.heads.lookup ws ∨
      (∀ e ∈ remoteHeads.takeWhile fun e => e.1 ≠ ws,
          ¬ Fails mint.write (fetch r remote) e.1 e.2) ∧
        ∃ before, Stage log r remote before ∧ before.heads.lookup ws = r.heads.lookup ws ∧
          (∀ e, mergeHead mint.write before ws remoteOid = .error e →
            (mergeHeadRefs mint.write later remoteHeads).1.heads.lookup ws = r.heads.lookup ws) ∧
          ∀ next result, mergeHead mint.write before ws remoteOid = .ok (next, result) →
            (mergeHeadRefs mint.write later remoteHeads).1.heads.lookup ws =
              next.heads.lookup ws := by
  induction remoteHeads generalizing later with
  | nil => exact absurd hmem List.not_mem_nil
  | cons e remoteHeads ih =>
    obtain ⟨ws', oid⟩ := e
    obtain ⟨hnew, hnodup⟩ := List.nodup_cons.mp hnodup
    have hlocal := hheads _ List.mem_cons_self
    have hhead := hremoteHeads _ List.mem_cons_self
    rw [mergeHeadRefs]
    by_cases heq : ws' = ws
    · subst heq
      obtain rfl : oid = remoteOid := by
        have hlookup := hremoteHeads _ hmem
        rw [hhead] at hlookup
        exact Option.some.inj hlookup
      rw [List.takeWhile_cons_of_neg (by simp)]
      refine .inr ⟨by simp, later, hstage, hlocal, fun e he => ?_, fun next result hok => ?_⟩
      · rw [he]
        exact hlocal
      · rw [hok]
        exact mergeHeadRefs_frame fun e he heq => hnew (List.mem_map.mpr ⟨e, he, heq⟩)
    · have hmem' : (ws, remoteOid) ∈ remoteHeads := by
        rcases List.mem_cons.mp hmem with hmem | hmem
        · exact absurd (congrArg Prod.fst hmem).symm heq
        · exact hmem
      have hws : later.heads.lookup ws = r.heads.lookup ws :=
        hheads _ (List.mem_cons_of_mem _ hmem')
      rw [List.takeWhile_cons_of_pos (by simpa using heq)]
      have hfails := @Stage.fails_iff log r remote later ws' oid mint hstage hr hremote hhead hlocal
      rcases @mergeHead_cases later ws' oid mint.write with
        ⟨hfail, e, he⟩ | ⟨hnot, next, result, hok, -⟩
      · rw [he]
        exact .inl ⟨⟨_, List.mem_cons_self, hfails.mp hfail⟩, hws⟩
      · rw [hok]
        have hnext : ∀ e ∈ remoteHeads, next.heads.lookup e.1 = r.heads.lookup e.1 := by
          intro e he
          have hne : e.1 ≠ ws' := fun heq => hnew (List.mem_map.mpr ⟨e, he, heq⟩)
          exact (mergeHead_frame hok hne).trans (hheads e (List.mem_cons_of_mem _ he))
        rcases ih (hstage.mergeHead hok) hnodup
          (fun e he => hremoteHeads e (List.mem_cons_of_mem _ he)) hnext hmem' with
          ⟨⟨e, he, hfail⟩, hkept⟩ | ⟨hpass, hrest⟩
        · exact .inl ⟨⟨e, List.mem_cons_of_mem _ he, hfail⟩, hkept⟩
        · refine .inr ⟨List.forall_mem_cons.mpr ⟨fun h => hnot (hfails.mpr h), hpass⟩, hrest⟩

/-! ### Logs that survive a pull -/

/-- A remote head that the machine does not have or that is ahead of its own. -/
def NewOrAdvanced (log : OpStore) : Option GitOid → GitOid → Prop
  | none, _ => True
  | some localOid, remoteOid => localOid ≠ remoteOid ∧ log.IsAncestor localOid remoteOid

/-- After a pull the new and advanced heads are adopted and their logs are read as they are, and a
head stays when an operation of the remote log is missing. -/
structure Survives (log : OpStore) (r remote : Replica) (after : Replica) : Prop where
  adopted : ∀ ws remoteOid, remote.heads.lookup ws = some remoteOid →
    NewOrAdvanced log (r.heads.lookup ws) remoteOid →
      after.heads.lookup ws = some remoteOid ∧
        ∃ chain, walkAll after.blobs [remoteOid] ∅ [] = .ok chain ∧
          log.walk none none [remoteOid] ∅ [] = .ok chain
  kept : ∀ ws remoteOid, remote.heads.lookup ws = some remoteOid →
    ¬ Whole log after.blobs remoteOid → after.heads.lookup ws = r.heads.lookup ws

/-- Once the remote heads are fetched, all operations below a new or advanced head are stored, and no
head before it fails. -/
structure ArrivesWhole (log : OpStore) (write : WriteMergeOp) (r remote : Replica) : Prop where
  whole : ∀ ws remoteOid, remote.heads.lookup ws = some remoteOid →
    NewOrAdvanced log (r.heads.lookup ws) remoteOid →
      Whole log (fetch r remote).blobs remoteOid
  passed : ∀ ws remoteOid, remote.heads.lookup ws = some remoteOid →
    NewOrAdvanced log (r.heads.lookup ws) remoteOid →
      ∀ e ∈ remote.headRefs.takeWhile fun e => e.1 ≠ ws, ¬ Fails write (fetch r remote) e.1 e.2

theorem mem_headRefs {r : Replica} {e : NamedWorkspace × GitOid} :
    e ∈ r.headRefs ↔ r.heads.lookup e.1 = some e.2 := by
  obtain ⟨ws, oid⟩ := e
  rw [Replica.headRefs, List.mem_filterMap]
  constructor
  · rintro ⟨ws', -, h⟩
    obtain ⟨oid', hoid', heq⟩ := Option.map_eq_some_iff.mp h
    obtain ⟨rfl, rfl⟩ := Prod.mk.inj heq
    exact hoid'
  · intro h
    refine ⟨ws, mem_inOrderOf.mpr (Finmap.mem_keys.mpr (FiniteMap.mem_of_lookup h)), ?_⟩
    rw [h, Option.map_some]

theorem nodup_headRefs (r : Replica) : (r.headRefs.map Prod.fst).Nodup := by
  rw [Replica.headRefs, List.Nodup, List.pairwise_map, List.pairwise_filterMap]
  have hnodup : (inOrderOf NamedWorkspace.asStr NamedWorkspace.asStr_injective r.heads.keys).Nodup :=
    nodup_inOrderOf
  refine hnodup.imp fun hne e he e' he' heq => hne ?_
  obtain ⟨oid, -, rfl⟩ := Option.map_eq_some_iff.mp he
  obtain ⟨oid', -, rfl⟩ := Option.map_eq_some_iff.mp he'
  exact heq

/-- A new or advanced head is adopted if its log is whole. -/
theorem mergeHead_of_whole {write : WriteMergeOp} (hwithin : Within later.blobs log)
    (hwhole : Whole log later.blobs remoteOid)
    (hnew : NewOrAdvanced log (later.heads.lookup ws) remoteOid) :
    ∃ result, mergeHead write later ws remoteOid = .ok (later.setHead ws remoteOid, result) := by
  rw [mergeHead, validateRemoteOpBlob_of_whole hwithin hwhole]
  cases hlocal : later.heads.lookup ws with
  | none => exact ⟨.newFromRemote, rfl⟩
  | some localOid =>
    rw [hlocal] at hnew
    simp only [if_neg hnew.1, relation_of_isAncestor hwithin hwhole hnew.2]
    exact ⟨.fastForward, rfl⟩

/-- A head stays if the remote one is neither new nor advanced and its log is not whole. -/
theorem mergeHead_of_missing {write : WriteMergeOp} (hwithin : Within later.blobs log)
    (hmissing : ¬ Whole log later.blobs remoteOid)
    (hnew : ¬ NewOrAdvanced log (later.heads.lookup ws) remoteOid)
    (h : mergeHead write later ws remoteOid = .ok (final, result)) :
    final.heads.lookup ws = later.heads.lookup ws := by
  rcases @mergeHead_cases later ws remoteOid write with ⟨-, e, he⟩ | ⟨-, next, result', hok, hcases⟩
  · rw [he] at h
    cases h
  · rw [h] at hok
    obtain ⟨rfl, rfl⟩ := Prod.mk.inj (Except.ok.inj hok)
    rcases hcases with rfl | ⟨-, -, hnone | ⟨localOid, hlocal, hne, hahead⟩⟩ |
      ⟨localOid, -, hdiverged, -⟩
    · rfl
    · rw [hnone] at hnew
      exact absurd trivial hnew
    · rw [hlocal] at hnew
      exact absurd ⟨hne, isAncestor_of_remoteAhead hwithin hahead⟩ hnew
    · exact absurd (whole_of_diverged hwithin hdiverged) hmissing

/-- The logs survive a pull of what the log has exactly when the new and advanced ones arrive whole. -/
theorem survives_of (hr : r.Of log) (hremote : remote.Of log) (mint : Mint log r remote) :
    Survives log r remote (pullManifoldRefs mint.write r remote).1 ↔
      ArrivesWhole log mint.write r remote := by
  have hfinal : Stage log r remote (pullManifoldRefs mint.write r remote).1 :=
    (stage_fetch hr hremote).mergeHeadRefs
  have hmerged (ws : NamedWorkspace) (remoteOid : GitOid)
      (hhead : remote.heads.lookup ws = some remoteOid) :=
    @mergeHeadRefs_head log r remote (fetch r remote) ws remoteOid mint remote.headRefs hr hremote
      (stage_fetch hr hremote) (nodup_headRefs remote) (fun e => mem_headRefs.mp) (fun _ _ => rfl)
      (mem_headRefs.mpr hhead)
  constructor
  · intro h
    refine ⟨fun ws remoteOid hhead hnew => ?_, fun ws remoteOid hhead hnew e he hfail => ?_⟩
    · obtain ⟨-, hread⟩ := h.adopted ws remoteOid hhead hnew
      exact (hfinal.whole_iff hhead).mp ((walkAll_eq_ok_iff hfinal.within).mp hread)
    · obtain ⟨hadopted, -⟩ := h.adopted ws remoteOid hhead hnew
      rcases hmerged ws remoteOid hhead with ⟨-, hkept⟩ | ⟨hpass, -⟩
      · rw [hkept.symm.trans hadopted] at hnew
        exact hnew.1 rfl
      · exact hpass e he hfail
  · intro h
    refine ⟨fun ws remoteOid hhead hnew => ?_, fun ws remoteOid hhead hmissing => ?_⟩
    · have hwhole := h.whole ws remoteOid hhead hnew
      refine ⟨?_, (walkAll_eq_ok_iff hfinal.within).mpr ((hfinal.whole_iff hhead).mpr hwhole)⟩
      rcases hmerged ws remoteOid hhead with ⟨⟨e, he, hfail⟩, -⟩ | ⟨-, before, hstage, hlocal, -, hok⟩
      · exact absurd hfail (h.passed ws remoteOid hhead hnew e he)
      · obtain ⟨result, hadopt⟩ := @mergeHead_of_whole log before ws remoteOid mint.write
          hstage.within ((hstage.whole_iff hhead).mpr hwhole) (by rwa [hlocal])
        exact (hok _ result hadopt).trans (Finmap.lookup_insert _)
    · rcases hmerged ws remoteOid hhead with ⟨-, hkept⟩ | ⟨-, before, hstage, hlocal, herror, hok⟩
      · exact hkept
      · rcases hmerge : mergeHead mint.write before ws remoteOid with e | ⟨next, result⟩
        · exact herror e hmerge
        · refine (hok next result hmerge).trans (Eq.trans ?_ hlocal)
          refine mergeHead_of_missing hstage.within ?_ ?_ hmerge
          · exact fun hwhole => hmissing
              ((hfinal.whole_iff hhead).mpr ((hstage.whole_iff hhead).mp hwhole))
          · intro hnew
            rw [hlocal] at hnew
            exact hmissing ((hfinal.whole_iff hhead).mpr (h.whole ws remoteOid hhead hnew))

/-! ### Machines and the remote -/

/-- A replica whose heads are stored is one after a head is merged. -/
theorem mem_blobs_mergeHead {write : WriteMergeOp}
    (hmem : ∀ ws oid, later.heads.lookup ws = some oid → oid ∈ later.blobs)
    (h : mergeHead write later ws remoteOid = .ok (final, result)) :
    ∀ ws oid, final.heads.lookup ws = some oid → oid ∈ final.blobs := by
  rcases @mergeHead_cases later ws remoteOid write with ⟨-, e, he⟩ | ⟨-, next, result', hok, hcases⟩
  · rw [he] at h
    cases h
  · rw [h] at hok
    obtain ⟨rfl, rfl⟩ := Prod.mk.inj (Except.ok.inj hok)
    rcases hcases with rfl | ⟨rfl, hvalid, -⟩ | ⟨localOid, -, -, hcreate⟩
    · exact hmem
    · intro other oid hoid
      rw [Replica.setHead, FiniteMap.lookup_insert] at hoid
      split_ifs at hoid with heq
      · obtain rfl := Option.some.inj hoid
        rw [validateRemoteOpBlob] at hvalid
        cases hop : later.blobs.lookup remoteOid with
        | none => simp [hop] at hvalid
        | some op => exact FiniteMap.mem_of_lookup hop
      · exact hmem other oid hoid
    · obtain ⟨⟨minted, timestamp⟩, -, rfl⟩ := Option.map_eq_some_iff.mp hcreate
      intro other oid hoid
      have hinserted : (later.heads.insert ws minted).lookup other = some oid := hoid
      rw [FiniteMap.lookup_insert] at hinserted
      refine Finmap.mem_insert.mpr ?_
      split_ifs at hinserted with heq
      · exact .inl (Option.some.inj hinserted).symm
      · exact .inr (hmem other oid hinserted)

theorem mem_blobs_mergeHeadRefs {write : WriteMergeOp}
    (hmem : ∀ ws oid, later.heads.lookup ws = some oid → oid ∈ later.blobs) :
    ∀ ws oid, (mergeHeadRefs write later remoteHeads).1.heads.lookup ws = some oid →
      oid ∈ (mergeHeadRefs write later remoteHeads).1.blobs := by
  induction remoteHeads generalizing later with
  | nil => exact hmem
  | cons e remoteHeads ih =>
    rw [mergeHeadRefs]
    cases hmerge : mergeHead write later e.1 e.2 with
    | error _ => exact hmem
    | ok merged =>
      obtain ⟨next, result⟩ := merged
      exact ih (mem_blobs_mergeHead hmem hmerge)

theorem of_pullManifoldRefs (hr : r.Of log) (hremote : remote.Of log) (mint : Mint log r remote) :
    (pullManifoldRefs mint.write r remote).1.Of log := by
  refine ⟨(stage_fetch hr hremote).mergeHeadRefs.within, mem_blobs_mergeHeadRefs ?_⟩
  intro ws oid hoid
  exact Finmap.mem_union.mpr (.inl (hr.heads_mem ws oid hoid))

theorem of_pushManifoldRefs (hr : r.Of log) (hremote : remote.Of log) (epochAccepted : Bool) :
    (pushManifoldRefs epochAccepted r remote).Of log := by
  rw [pushManifoldRefs]
  split_ifs
  · refine ⟨within_fetch hremote hr, fun ws oid hoid => Finmap.mem_union.mpr ?_⟩
    rw [FiniteMap.lookup_union] at hoid
    rcases Option.or_eq_some_iff.mp hoid with hoid | ⟨-, hoid⟩
    · refine .inr ((FiniteMap.mem_filterKeys _ _ _).mpr ⟨⟨ws, ?_, hoid⟩, hr.heads_mem ws oid hoid⟩)
      exact Finmap.mem_keys.mpr (FiniteMap.mem_of_lookup hoid)
    · exact .inl (hremote.heads_mem ws oid hoid)
  · exact hremote

end Pull

/-! ### Machines and the remote -/

/-- A replica whose operations are of the log. -/
abbrev LogReplica (log : OpStore) := {r : Replica // r.Of log}

/-- Any number of machines and the remote; the log has all operations that are written anywhere. -/
structure SyncState (log : OpStore) (ι : Type) where
  machine : ι → LogReplica log
  remote : LogReplica log

namespace SyncState

variable {log : OpStore} {ι : Type} [DecidableEq ι] (s : SyncState log ι)

/-- A machine appends an operation of the log. -/
def append (m : ι) (ws : NamedWorkspace) (oid : GitOid) (op : Operation)
    (hop : log.nodes.lookup oid = some op) : SyncState log ι where
  machine := Function.update s.machine m
    ⟨⟨(s.machine m).1.blobs.insert oid op, (s.machine m).1.heads.insert ws oid⟩, by
      refine ⟨fun other op' hop' => ?_, fun ws' other hother => Finmap.mem_insert.mpr ?_⟩
      · rw [FiniteMap.lookup_insert] at hop'
        split_ifs at hop' with heq
        · rw [heq, hop, hop']
        · exact (s.machine m).2.within other op' hop'
      · rw [FiniteMap.lookup_insert] at hother
        split_ifs at hother
        · exact .inl (Option.some.inj hother).symm
        · exact .inr ((s.machine m).2.heads_mem ws' other hother)⟩
  remote := s.remote

def push (m : ι) (epochAccepted : Bool) : SyncState log ι where
  machine := s.machine
  remote := ⟨pushManifoldRefs epochAccepted (s.machine m).1 s.remote.1,
    of_pushManifoldRefs (s.machine m).2 s.remote.2 epochAccepted⟩

def pull (m : ι) (mint : Mint log (s.machine m).1 s.remote.1) : SyncState log ι where
  machine := Function.update s.machine m
    ⟨(pullManifoldRefs mint.write (s.machine m).1 s.remote.1).1,
      of_pullManifoldRefs (s.machine m).2 s.remote.2 mint⟩
  remote := s.remote

/-- Whatever was appended, pushed and pulled before, the logs survive a pull exactly when the new and
advanced ones arrive whole. -/
theorem survives_iff (m : ι) (mint : Mint log (s.machine m).1 s.remote.1) :
    Survives log (s.machine m).1 s.remote.1 ((s.pull m mint).machine m).1 ↔
      ArrivesWhole log mint.write (s.machine m).1 s.remote.1 := by
  have hmachine : ((s.pull m mint).machine m).1 =
      (pullManifoldRefs mint.write (s.machine m).1 s.remote.1).1 := by
    simp only [pull, Function.update_self]
  rw [hmachine]
  exact survives_of (s.machine m).2 s.remote.2 mint

end SyncState

/-! ### A log of two operations -/

/-- The machine `true` has a log of two operations that it has pushed, the machine `false` nothing. -/
def pushedState : SyncState describedLog.store Bool :=
  SyncState.push
    ⟨fun m => ⟨if m then ⟨describedLog.store.nodes, Finmap.singleton sampleWs (sampleOid 2)⟩
      else ⟨∅, ∅⟩, by
        cases m
        · exact ⟨fun oid op h => by simp at h, fun ws oid h => by simp at h⟩
        · refine ⟨fun oid op h => h, fun ws oid h => ?_⟩
          have hws : ws = sampleWs := (Finmap.mem_singleton _ _ _).mp (FiniteMap.mem_of_lookup h)
          rw [hws, if_pos rfl, Finmap.lookup_singleton_eq] at h
          obtain rfl := Option.some.inj h
          exact Finmap.mem_keys.mp (by decide +kernel)⟩,
      ⟨⟨∅, ∅⟩, ⟨fun oid op h => by simp at h, fun ws oid h => by simp at h⟩⟩⟩ true true

def noMint (r remote : Replica) : Mint describedLog.store r remote where
  write _ _ _ := none
  write_op _ _ _ _ _ h := by cases h
  write_new _ _ _ _ _ _ h := by cases h

/-- The log is rejected: only the blob of its head is sent. -/
theorem not_survives : ¬ Survives describedLog.store (pushedState.machine false).1
    pushedState.remote.1 ((pushedState.pull false (noMint _ _)).machine false).1 := by
  intro h
  have hremote : pushedState.remote.1.heads.lookup sampleWs = some (sampleOid 2) := by
    decide +kernel
  have hnew : NewOrAdvanced describedLog.store ((pushedState.machine false).1.heads.lookup sampleWs)
      (sampleOid 2) := trivial
  have hrejected : ((pushedState.pull false (noMint _ _)).machine false).1.heads.lookup sampleWs =
      none := by decide +kernel
  rw [(h.adopted sampleWs (sampleOid 2) hremote hnew).1] at hrejected
  cases hrejected

end Maw.Transport
