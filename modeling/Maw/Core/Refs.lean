import Maw.Core.Types

/-!
# Refs

The refs of a repository and their transactions. A transaction is atomic: it moves all of its
refs or none of them.

## Main definitions

* `RefStore` — the refs of a repository; `RefStore.Matches` — the expected value of a ref.
* `UpdatesRefsAtomic` — the outcomes of a transaction.
* `epochCurrent`, `branchRef`, `workspaceEpochRef` — the names of refs.
-/

namespace Maw

/-- The refs of a repository that exist, with their values. -/
abbrev RefStore := FiniteMap String GitOid

inductive RefError
  | casMismatch (refName : String)
  | gitCommand
  deriving DecidableEq, Repr

/-- One ref of a transaction, with its expected and its new value. -/
structure RefEdit where
  name : String
  oldOid : GitOid
  newOid : GitOid
  deriving DecidableEq, Repr

namespace RefStore

/-- The ref has the expected value; the zero id stands for a ref that does not exist. -/
def Matches (refs : RefStore) (name : String) (oldOid : GitOid) : Prop :=
  refs.lookup name = if oldOid.bits = 0 then none else some oldOid

instance (refs : RefStore) (name : String) (oldOid : GitOid) :
    Decidable (refs.Matches name oldOid) :=
  inferInstanceAs (Decidable (_ = _))

/-- Set the refs of a transaction. -/
def setAll (refs : RefStore) (edits : List RefEdit) : RefStore :=
  edits.foldl (fun refs edit => refs.insert edit.name edit.newOid) refs

/-- A ref with another value does not match. -/
theorem not_matches_of_lookup {refs : RefStore} {name : String} {oid oldOid : GitOid}
    (h : refs.lookup name = some oid) (hne : oid ≠ oldOid) : ¬ refs.Matches name oldOid := by
  rw [Matches, h]
  split_ifs
  · simp
  · simpa using hne

end RefStore

/-- The outcomes of a transaction: all refs match and are set, or it fails and sets none. -/
def UpdatesRefsAtomic (edits : List RefEdit) (refs : RefStore) (result : Except RefError Unit)
    (refs' : RefStore) : Prop :=
  (result = .ok () ∧ (∀ edit ∈ edits, refs.Matches edit.name edit.oldOid) ∧
      refs' = refs.setAll edits) ∨
    (∃ e, result = .error e) ∧ refs' = refs

/-- The ref of the current epoch. -/
def epochCurrent : String := "refs/manifold/epoch/current"

/-- The ref of a branch. -/
def branchRef (branch : String) : String := "refs/heads/" ++ branch

/-- The ref of the base epoch of a workspace. -/
def workspaceEpochRef (name : String) : String := "refs/manifold/epoch/ws/" ++ name

theorem branchRef_ne_epochCurrent (branch : String) : branchRef branch ≠ epochCurrent := by
  intro h
  have hlist := congrArg String.toList h
  rw [branchRef, String.toList_append] at hlist
  have hchar := congrArg (·[5]?) hlist
  rw [List.getElem?_append_left (by decide)] at hchar
  exact absurd hchar (by decide)

end Maw
