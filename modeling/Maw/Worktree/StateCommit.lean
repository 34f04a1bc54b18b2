import Maw.Worktree.Status

/-!
# A commit of the worktree's state

The state of a worktree is committed by editing the tree of its commit: a path that the status
lists is set to the file on disk or removed. What is on disk but is no file is passed over, and
without edits there is no commit. The edited tree is the state of the worktree except at the
paths that were passed over.

## Main definitions

* `StateEdit`, `StateEdit.apply` — edits of a tree.
* `Worktree.stateEdits` — the edits for a worktree.
* `Worktree.Skipped` — the paths that are passed over.

## Main results

* `lookup_foldl_apply` — a list of edits makes a tree of another one.
* `Worktree.lookup_stateTree` — the edited tree.
-/

namespace Maw

/-- One edit of a tree. -/
inductive StateEdit
  | upsert (path : Path) (entry : MaterializedEntry)
  | remove (path : Path)
  deriving DecidableEq, Repr

namespace StateEdit

/-- The path that an edit is about. -/
def path : StateEdit → Path
  | upsert p _ => p
  | remove p => p

/-- What an edit leaves at its path. -/
def result : StateEdit → Option MaterializedEntry
  | upsert _ e => some e
  | remove _ => none

/-- Apply an edit: a file takes the place of what lies above or below it, and a directory is
removed with all it holds. -/
def apply (tree : GitTree) : StateEdit → GitTree
  | upsert p e => (tree.filterKeys fun q => ¬ q.Comparable p).insert p e
  | remove p => tree.filterKeys fun q => q ≠ p ∧ ¬ p.Above q

@[simp]
theorem lookup_apply_upsert (tree : GitTree) (p q : Path) (e : MaterializedEntry) :
    (apply tree (upsert p e)).lookup q =
      if q = p then some e else if q.Comparable p then none else tree.lookup q := by
  rw [apply, FiniteMap.lookup_insert, FiniteMap.lookup_filterKeys]
  split_ifs <;> simp_all

@[simp]
theorem lookup_apply_remove (tree : GitTree) (p q : Path) :
    (apply tree (remove p)).lookup q =
      if q = p ∨ p.Above q then none else tree.lookup q := by
  rw [apply, FiniteMap.lookup_filterKeys]
  split_ifs <;> simp_all

end StateEdit

/-- An edit leaves no entry below another one. -/
theorem apply_prefixFree {tree : GitTree} (h : TreePrefixFree tree) (edit : StateEdit) :
    TreePrefixFree (StateEdit.apply tree edit) := by
  intro p hp q hq habove
  rw [Set.mem_ofPred_eq] at hp hq
  cases edit with
  | upsert r e =>
    have hcases (s : Path) (hs : (StateEdit.apply tree (.upsert r e)).lookup s ≠ none) :
        s = r ∨ ¬ s.Comparable r ∧ tree.lookup s ≠ none := by
      rw [StateEdit.lookup_apply_upsert] at hs
      split_ifs at hs with hsr hcomp
      · exact .inl hsr
      · exact absurd rfl hs
      · exact .inr ⟨hcomp, hs⟩
    rcases hcases p hp with rfl | ⟨hpr, hp⟩ <;> rcases hcases q hq with rfl | ⟨hqr, hq⟩
    · exact Path.Above.irrefl _ habove
    · exact hqr (.inr habove)
    · exact hpr (.inl habove)
    · exact h p hp q hq habove
  | remove r =>
    have hkeep (s : Path) (hs : (StateEdit.apply tree (.remove r)).lookup s ≠ none) :
        tree.lookup s ≠ none := by
      rw [StateEdit.lookup_apply_remove] at hs
      split_ifs at hs with hsr
      · exact absurd rfl hs
      · exact hs
    exact h p (hkeep p hp) q (hkeep q hq) habove

theorem foldl_apply_prefixFree {tree : GitTree} (edits : List StateEdit) (h : TreePrefixFree tree) :
    TreePrefixFree (edits.foldl StateEdit.apply tree) := by
  induction edits generalizing tree with
  | nil => exact h
  | cons edit edits ih => exact ih (apply_prefixFree h edit)

/-- A list of edits makes the tree `T` of a tree that agrees with `T` at all other paths, if no
edit takes away what belongs to `T`: what lies above or below a file is not in `T`, and what lies
below a removed path is not in `T` or comes later. -/
theorem lookup_foldl_apply {T : Path → Option MaterializedEntry} (edits : List StateEdit)
    (tree : GitTree) (hresult : ∀ edit ∈ edits, T edit.path = edit.result)
    (hfile : ∀ p e q, StateEdit.upsert p e ∈ edits → q.Comparable p → T q = none)
    (hdir : ∀ p q l₁ l₂, edits = l₁ ++ .remove p :: l₂ → p.Above q →
      T q = none ∨ ∃ edit ∈ l₂, edit.path = q)
    (hother : ∀ p, tree.lookup p = T p ∨ ∃ edit ∈ edits, edit.path = p) (p : Path) :
    (edits.foldl StateEdit.apply tree).lookup p = T p := by
  induction edits generalizing tree with
  | nil => simpa using hother p
  | cons edit edits ih =>
    rw [List.foldl_cons]
    refine ih _ (fun e he => hresult e (List.mem_cons_of_mem _ he))
      (fun p e q he => hfile p e q (List.mem_cons_of_mem _ he)) ?_ fun q => ?_
    · rintro p q l₁ l₂ rfl
      exact hdir p q (edit :: l₁) l₂ rfl
    · have hself := hresult edit List.mem_cons_self
      -- Paths that the edit does not touch stay as they were.
      have hkeep (hq : q ≠ edit.path) :
          tree.lookup q = T q ∨ ∃ edit ∈ edits, edit.path = q := by
        rcases hother q with h | ⟨edit', hmem, rfl⟩
        · exact .inl h
        · rcases List.mem_cons.mp hmem with rfl | hmem
          · exact absurd rfl hq
          · exact .inr ⟨edit', hmem, rfl⟩
      cases edit with
      | upsert p e =>
        rw [StateEdit.lookup_apply_upsert]
        split_ifs with hq hcomp
        · rw [hq]
          exact .inl hself.symm
        · exact .inl (hfile p e q List.mem_cons_self hcomp).symm
        · exact hkeep hq
      | remove p =>
        rw [StateEdit.lookup_apply_remove]
        split_ifs with hq
        · rcases hq with rfl | habove
          · exact .inl hself.symm
          · rcases hdir p q [] edits rfl habove with h | h
            · exact .inl h.symm
            · exact .inr h
        · exact hkeep fun he => hq (.inl he)

namespace Worktree

variable (ignored : Disk → Path → Bool) (head : GitTree) (wt : Worktree)

/-- The edit for one path of the status, unless it is passed over. -/
def stateEdit (p : Path) (status : FileStatus) : Option StateEdit :=
  match status with
  | .deleted => some (.remove p)
  | .added | .modified | .renamed | .untracked =>
    match wt.disk.occupants.lookup p with
    | none => some (.remove p)
    | some occupant => occupant.fileEntry.map (.upsert p)

/-- The edits that turn the tree of the commit into the state of the worktree. -/
def stateEdits : List StateEdit :=
  (wt.statusHeadToWorktree ignored head).filterMap fun (p, status) => wt.stateEdit p status

/-- The edited tree. -/
def stateTree : GitTree := (wt.stateEdits ignored head).foldl StateEdit.apply head

/-- The status lists the path, but what stands there is no file. -/
def Skipped (p : Path) : Prop :=
  (wt.statusAt ignored head p).any (fun status => (wt.stateEdit p status).isNone) = true

instance (p : Path) : Decidable (wt.Skipped ignored head p) :=
  inferInstanceAs (Decidable (_ = true))

/-- What the edits leave at a path: what the commit has at a path that is passed over, and else
the state of the worktree. -/
def committed (p : Path) : Option MaterializedEntry :=
  if wt.Skipped ignored head p then head.lookup p else wt.content ignored p

variable {ignored head wt} {p q : Path} {status : FileStatus} {edit : StateEdit}

theorem path_of_stateEdit (h : wt.stateEdit p status = some edit) : edit.path = p := by
  unfold stateEdit at h
  rcases hdisk : wt.disk.occupants.lookup p with _ | occupant <;> rw [hdisk] at h
  · cases status <;> exact Option.some.inj h ▸ rfl
  · cases status
    case deleted => exact Option.some.inj h ▸ rfl
    all_goals
      obtain ⟨e, -, rfl⟩ := Option.map_eq_some_iff.mp h
      rfl

theorem mem_stateEdits : edit ∈ wt.stateEdits ignored head ↔
    ∃ status, wt.statusAt ignored head edit.path = some status ∧
      wt.stateEdit edit.path status = some edit := by
  rw [stateEdits, List.mem_filterMap]
  constructor
  · rintro ⟨⟨p, status⟩, hmem, hedit⟩
    obtain rfl := path_of_stateEdit hedit
    exact ⟨status, mem_status.mp hmem, hedit⟩
  · rintro ⟨status, hstatus, hedit⟩
    exact ⟨(edit.path, status), mem_status.mpr hstatus, hedit⟩

/-- An edit comes before the edits below its path. -/
theorem stateEdits_pairwise :
    (wt.stateEdits ignored head).Pairwise fun a b => ¬ b.path.Above a.path := by
  rw [stateEdits, List.pairwise_filterMap]
  refine status_pairwise.imp ?_
  rintro ⟨p, _⟩ ⟨q, _⟩ hpq a ha b hb
  rw [path_of_stateEdit ha, path_of_stateEdit hb]
  exact hpq

/-- What stands on disk is set if it is a file. -/
theorem stateEdit_of_occupied {occupant : Occupant} (hne : status ≠ .deleted)
    (h : wt.disk.occupants.lookup p = some occupant) :
    wt.stateEdit p status = occupant.fileEntry.map (.upsert p) := by
  cases status <;> simp_all [stateEdit]

/-- A path with a status has an edit unless it is passed over. -/
theorem exists_edit (hstatus : wt.statusAt ignored head p = some status)
    (h : ¬ wt.Skipped ignored head p) : ∃ edit ∈ wt.stateEdits ignored head, edit.path = p := by
  rcases hedit : wt.stateEdit p status with _ | edit
  · exact absurd (by simp [Skipped, hstatus, hedit]) h
  · obtain rfl := path_of_stateEdit hedit
    exact ⟨edit, mem_stateEdits.mpr ⟨status, hstatus, hedit⟩, rfl⟩

theorem not_skipped_of_mem (h : edit ∈ wt.stateEdits ignored head) :
    ¬ wt.Skipped ignored head edit.path := by
  obtain ⟨status, hstatus, hedit⟩ := mem_stateEdits.mp h
  simp [Skipped, hstatus, hedit]

theorem Skipped.occupied (h : wt.Skipped ignored head p) :
    wt.disk.occupants.lookup p ≠ none := by
  intro hnone
  rw [Skipped, Option.any_eq_true] at h
  obtain ⟨status, -, hedit⟩ := h
  cases status <;> simp [stateEdit, hnone] at hedit

/-- The edits of the code say what the tree is to have. -/
theorem committed_of_mem (h : edit ∈ wt.stateEdits ignored head) :
    wt.committed ignored head edit.path = edit.result := by
  rw [committed, if_neg (not_skipped_of_mem h)]
  obtain ⟨status, hstatus, hedit⟩ := mem_stateEdits.mp h
  rcases statusAt_cases ignored head wt edit.path with
    ⟨hnone, -⟩ | ⟨hdeleted, hcontent, -⟩ | ⟨status', occupant, hstatus', hne, hdisk, hcontent⟩
  · rw [hnone] at hstatus
    exact absurd hstatus (by simp)
  · obtain rfl := Option.some.inj (hdeleted.symm.trans hstatus)
    rw [hcontent, ← Option.some.inj hedit]
    rfl
  · obtain rfl := Option.some.inj (hstatus'.symm.trans hstatus)
    rw [stateEdit_of_occupied hne hdisk] at hedit
    obtain ⟨e, he, heq⟩ := Option.map_eq_some_iff.mp hedit
    have hresult : edit.result = some e := heq ▸ rfl
    rw [hcontent, hresult, Occupant.entry_of_fileEntry he]

theorem occupied_of_upsert {e : MaterializedEntry}
    (h : .upsert p e ∈ wt.stateEdits ignored head) : wt.disk.occupants.lookup p ≠ none := by
  intro hnone
  have hcommitted := committed_of_mem h
  rw [committed, if_neg (not_skipped_of_mem h)] at hcommitted
  simp [content, Disk.entryAt, StateEdit.path, StateEdit.result, hnone] at hcommitted

theorem head_of_remove (h : .remove p ∈ wt.stateEdits ignored head) : head.lookup p ≠ none := by
  obtain ⟨status, hstatus, hedit⟩ := mem_stateEdits.mp h
  rcases statusAt_cases ignored head wt p with
    ⟨hnone, -⟩ | ⟨-, -, hhead⟩ | ⟨status', occupant, hstatus', hne, hdisk, -⟩
  · rw [StateEdit.path, hnone] at hstatus
    exact absurd hstatus (by simp)
  · exact hhead
  · obtain rfl := Option.some.inj (hstatus'.symm.trans hstatus)
    rw [StateEdit.path, stateEdit_of_occupied hne hdisk] at hedit
    obtain ⟨e, -, heq⟩ := Option.map_eq_some_iff.mp hedit
    exact absurd heq (by simp)

theorem committed_of_not_occupied (h : wt.disk.occupants.lookup p = none) :
    wt.committed ignored head p = none := by
  rw [committed, if_neg fun hskipped => hskipped.occupied h, content, Disk.entryAt, h]
  simp

/-- The edited tree has what the commit has at the paths that are passed over, and the state of
the worktree at all others. -/
theorem lookup_stateTree (hhead : TreePrefixFree head) (p : Path) :
    (wt.stateTree ignored head).lookup p = wt.committed ignored head p := by
  refine lookup_foldl_apply (T := wt.committed ignored head) _ _ (fun _ => committed_of_mem) ?_ ?_
    ?_ p
  · intro p e q hmem hcomp
    refine committed_of_not_occupied (by_contra fun hq => ?_)
    exact wt.disk.prefixFree.not_comparable hq (occupied_of_upsert hmem) hcomp
  · intro p q l₁ l₂ hl habove
    have hp : .remove p ∈ wt.stateEdits ignored head := hl ▸ by simp
    have hnone : head.lookup q = none :=
      by_contra fun hq => hhead p (head_of_remove hp) q hq habove
    by_cases hskipped : wt.Skipped ignored head q
    · exact .inl (by rw [committed, if_pos hskipped, hnone])
    rcases hstatus : wt.statusAt ignored head q with _ | status
    · rcases statusAt_cases ignored head wt q with ⟨-, hcontent⟩ | ⟨h, -⟩ | ⟨_, _, h, -⟩
      · exact .inl (by rw [committed, if_neg hskipped, hcontent, hnone])
      · simp [h] at hstatus
      · simp [h] at hstatus
    · obtain ⟨edit, hmem, rfl⟩ := exists_edit hstatus hskipped
      have hpairwise : (wt.stateEdits ignored head).Pairwise fun a b => ¬ b.path.Above a.path :=
        stateEdits_pairwise
      rw [hl] at hmem hpairwise
      rcases List.mem_append.mp hmem with h | h
      · exact absurd habove ((List.pairwise_append.mp hpairwise).2.2 edit h _ List.mem_cons_self)
      · rcases List.mem_cons.mp h with rfl | h
        · exact absurd habove (Path.Above.irrefl p)
        · exact .inr ⟨edit, h, rfl⟩
  · intro p
    by_cases hskipped : wt.Skipped ignored head p
    · exact .inl (by rw [committed, if_pos hskipped])
    rcases hstatus : wt.statusAt ignored head p with _ | status
    · rcases statusAt_cases ignored head wt p with ⟨-, hcontent⟩ | ⟨h, -⟩ | ⟨_, _, h, -⟩
      · exact .inl (by rw [committed, if_neg hskipped, hcontent])
      · simp [h] at hstatus
      · simp [h] at hstatus
    · exact .inr (exists_edit hstatus hskipped)

theorem stateTree_prefixFree (hhead : TreePrefixFree head) :
    TreePrefixFree (wt.stateTree ignored head) := by
  exact foldl_apply_prefixFree _ hhead

variable (ignored) in
/-- The commit of the state, on top of the commit that the worktree is on; there is none without
edits. -/
def stateCommit (commits : CommitStore) (wt : Worktree) : Option Commit :=
  if wt.stateEdits ignored (commits.treeOf wt.head) = [] then none
  else some ⟨wt.stateTree ignored (commits.treeOf wt.head), [wt.head],
    stateTree_prefixFree (commits.treeOf_prefixFree wt.head)⟩

end Worktree

end Maw
