import Mathlib.Data.List.Lex
import Maw.Library.JsonText
import Maw.Library.KeyedSort
import Maw.Oplog.Types

/-!
# Joining patch sets

The join of two patch sets with one base epoch has the changes of both; a path that they change
in different ways is a conflict and is in neither. A third patch set does not see that a path was
in conflict, and may bring one of its changes back.

## Main definitions

* `join` — the join of two patch sets.
* `joinLeft`, `joinRight` — three patch sets, joined in either association.

## Main results

* `join_crdt` — joins are idempotent and commutative, and associative up to the changes of the
  paths in conflict; they are associative when no path has a different first and third change.
-/

namespace Maw.Oplog

/-- The components of a path, by which paths are ordered. -/
def pathKey (path : String) : List (List Char) := path.toList.splitOn '/'

theorem pathKey_injective : Function.Injective pathKey := fun a b h => by
  have hlist := congrArg (List.intercalate ['/']) h
  rw [pathKey, pathKey, List.intercalate_splitOn, List.intercalate_splitOn] at hlist
  exact String.toList_injective hlist

/-! ### Patch values as JSON -/

namespace PatchValue

/-- The fields of the JSON text of a patch value. -/
def textFields : PatchValue → List (String × Option String)
  | add blob fileId =>
    [("op", some "add"), ("blob", some blob.asStr), ("file_id", some fileId.toHex)]
  | delete previousBlob fileId =>
    [("op", some "delete"), ("previous_blob", some previousBlob.asStr),
      ("file_id", some fileId.toHex)]
  | modify baseBlob newBlob fileId =>
    [("op", some "modify"), ("base_blob", some baseBlob.asStr), ("new_blob", some newBlob.asStr),
      ("file_id", some fileId.toHex)]
  | rename source fileId newBlob =>
    [("op", some "rename"), ("from", some source), ("file_id", some fileId.toHex),
      ("new_blob", newBlob.map GitOid.asStr)]

/-- The JSON text of a patch value. -/
def toJsonText (value : PatchValue) : String := JsonText.recordText value.textFields

theorem asStr_injective : Function.Injective GitOid.asStr := fun a b h => by
  have hnew := congrArg GitOid.new h
  rw [GitOid.new_asStr, GitOid.new_asStr] at hnew
  exact Option.some.inj hnew

theorem toHex_injective : Function.Injective FileId.toHex := fun a b h => by
  have hread := congrArg FileId.fromHex h
  rw [FileId.fromHex_toHex, FileId.fromHex_toHex] at hread
  exact Option.some.inj hread

theorem textFields_injective : Function.Injective textFields := by
  rintro (_ | _ | _ | _) (_ | _ | _ | _) h
  all_goals
    simp [textFields, asStr_injective.eq_iff, toHex_injective.eq_iff,
      (Option.map_injective asStr_injective).eq_iff] at h ⊢
  all_goals tauto

/-- Different patch values have different texts. -/
theorem toJsonText_injective : Function.Injective toJsonText :=
  JsonText.recordText_injective.comp textFields_injective

end PatchValue

/-! ### The join -/

/-- Why two changes of one path could not be merged. -/
inductive ConflictReason
  | divergentAdd
  | divergentModify
  | modifyDelete
  | renameConflict
  | divergentRename
  | incompatible
  deriving DecidableEq, Repr

/-- A path that two patch sets change in different ways, with both changes. -/
structure PathConflict where
  path : String
  sides : PatchValue × PatchValue
  reason : ConflictReason
  deriving DecidableEq, Repr

structure JoinResult where
  merged : PatchSet
  conflicts : List PathConflict

structure EpochMismatch where
  left : EpochId
  right : EpochId
  deriving DecidableEq, Repr

/-- Why two different changes conflict. -/
def classifyConflict : PatchValue → PatchValue → ConflictReason
  | .add _ _, .add _ _ => .divergentAdd
  | .modify _ _ _, .modify _ _ _ => .divergentModify
  | .modify _ _ _, .delete _ _ | .delete _ _, .modify _ _ _ => .modifyDelete
  | .rename source _ _, .rename source' _ _ =>
    if source = source' then .divergentRename else .incompatible
  | .rename _ _ _, _ | _, .rename _ _ _ => .renameConflict
  | _, _ => .incompatible

/-- Both changes, in the order of their JSON texts. -/
def sortedSides (left right : PatchValue) : PatchValue × PatchValue :=
  if left.toJsonText ≤ right.toJsonText then (left, right) else (right, left)

/-- The paths that one of two patch sets changes, in order. -/
def allPaths (a b : PatchSet) : List String :=
  KeyedSort.inOrderOf pathKey pathKey_injective (a.patches.keys ∪ b.patches.keys)

/-- Join the changes of one path. -/
def joinPath (a b : PatchSet) (acc : FiniteMap String PatchValue × List PathConflict)
    (path : String) : FiniteMap String PatchValue × List PathConflict :=
  match a.patches.lookup path, b.patches.lookup path with
  | some l, none => (acc.1.insert path l, acc.2)
  | none, some r => (acc.1.insert path r, acc.2)
  | some l, some r =>
    if l = r then (acc.1.insert path l, acc.2)
    else (acc.1, acc.2 ++ [⟨path, sortedSides l r, classifyConflict l r⟩])
  | none, none => acc

/-- Join two patch sets with the same base epoch. -/
def join (a b : PatchSet) : Except EpochMismatch JoinResult :=
  if a.baseEpoch ≠ b.baseEpoch then .error ⟨a.baseEpoch, b.baseEpoch⟩
  else
    let joined := (allPaths a b).foldl (joinPath a b) (∅, [])
    .ok ⟨⟨a.baseEpoch, joined.1⟩, joined.2⟩

/-! ### Two changes of one path -/

section Changes

variable {l r : PatchValue}

theorem classifyConflict_comm (l r : PatchValue) : classifyConflict l r = classifyConflict r l := by
  rcases l with _ | _ | _ | _ <;> rcases r with _ | _ | _ | _ <;> try rfl
  rw [classifyConflict, classifyConflict]
  simp only [eq_comm]

theorem sortedSides_comm (l r : PatchValue) : sortedSides l r = sortedSides r l := by
  rw [sortedSides, sortedSides]
  rcases lt_trichotomy l.toJsonText r.toJsonText with h | h | h
  · rw [if_pos h.le, if_neg h.not_ge]
  · rw [PatchValue.toJsonText_injective h]
  · rw [if_neg h.not_ge, if_pos h.le]

/-- The conflict of two different changes. -/
def conflictOf (path : String) (l r : PatchValue) : PathConflict :=
  ⟨path, sortedSides l r, classifyConflict l r⟩

theorem conflictOf_comm (path : String) (l r : PatchValue) :
    conflictOf path l r = conflictOf path r l := by
  rw [conflictOf, conflictOf, sortedSides_comm, classifyConflict_comm]

/-- The change that two patch sets make together. -/
def joinChange : Option PatchValue → Option PatchValue → Option PatchValue
  | some l, none => some l
  | none, r => r
  | some l, some r => if l = r then some l else none

/-- Two changes that conflict. -/
def Conflicts (left right : Option PatchValue) : Prop :=
  ∃ l r, left = some l ∧ right = some r ∧ l ≠ r

/-- The conflict of a path. -/
def conflictAt (a b : PatchSet) (path : String) : Option PathConflict :=
  match a.patches.lookup path, b.patches.lookup path with
  | some l, some r => if l = r then none else some (conflictOf path l r)
  | _, _ => none

end Changes

/-! ### The join, path by path -/

section Join

variable {a b c : PatchSet} {path : String}

/-- The changes that two patch sets make together. -/
def joinPatches (a b : PatchSet) : FiniteMap String PatchValue :=
  ((allPaths a b).foldl (joinPath a b) (∅, [])).1

/-- The conflicts of two patch sets, in the order of their paths. -/
def joinConflicts (a b : PatchSet) : List PathConflict := (allPaths a b).filterMap (conflictAt a b)

theorem joinPath_eq (a b : PatchSet) (acc : FiniteMap String PatchValue × List PathConflict)
    (path : String) : joinPath a b acc path =
      ((joinChange (a.patches.lookup path) (b.patches.lookup path)).elim acc.1 (acc.1.insert path),
        acc.2 ++ (conflictAt a b path).toList) := by
  rw [joinPath, conflictAt]
  rcases a.patches.lookup path with _ | l <;> rcases b.patches.lookup path with _ | r
  · simp [joinChange]
  · simp [joinChange]
  · simp [joinChange]
  · by_cases heq : l = r
    · simp [joinChange, heq]
    · simp [joinChange, conflictOf, heq]

theorem foldl_joinPath (paths : List String)
    (acc : FiniteMap String PatchValue × List PathConflict) :
    (paths.foldl (joinPath a b) acc).2 = acc.2 ++ paths.filterMap (conflictAt a b) ∧
      ∀ path, (paths.foldl (joinPath a b) acc).1.lookup path =
        if path ∈ paths then
          (joinChange (a.patches.lookup path) (b.patches.lookup path)).or (acc.1.lookup path)
        else acc.1.lookup path := by
  induction paths generalizing acc with
  | nil => simp
  | cons head paths ih =>
    obtain ⟨hconflicts, hlookup⟩ := ih (joinPath a b acc head)
    rw [List.foldl_cons]
    constructor
    · rw [hconflicts, joinPath_eq]
      rcases h : conflictAt a b head with _ | conflict
      · simp [h]
      · simp [h]
    · intro path
      rw [hlookup, joinPath_eq]
      have hinsert : ((joinChange (a.patches.lookup head) (b.patches.lookup head)).elim acc.1
          (acc.1.insert head)).lookup path = if path = head then
            (joinChange (a.patches.lookup head) (b.patches.lookup head)).or (acc.1.lookup path)
          else acc.1.lookup path := by
        rcases joinChange (a.patches.lookup head) (b.patches.lookup head) with _ | value
        · simp
        · rw [Option.elim_some, FiniteMap.lookup_insert, Option.some_or]
      rw [hinsert]
      by_cases heq : path = head
      · subst heq
        simp only [List.mem_cons, true_or, if_true]
        rcases joinChange (a.patches.lookup path) (b.patches.lookup path) with _ | value
        · simp
        · simp
      · simp [heq]

theorem mem_allPaths :
    path ∈ allPaths a b ↔ a.patches.lookup path ≠ none ∨ b.patches.lookup path ≠ none := by
  simp [allPaths, Finmap.lookup_eq_none, Finmap.mem_keys]

theorem lookup_joinPatches :
    (joinPatches a b).lookup path = joinChange (a.patches.lookup path) (b.patches.lookup path) := by
  rw [joinPatches, (foldl_joinPath _ _).2]
  split_ifs with hmem
  · simp
  · rw [mem_allPaths, not_or, not_not, not_not] at hmem
    rw [hmem.1, hmem.2]
    rfl

/-- What two patch sets change together. -/
def joined (a b : PatchSet) : PatchSet := ⟨a.baseEpoch, joinPatches a b⟩

@[simp]
theorem lookup_joined : (joined a b).patches.lookup path =
    joinChange (a.patches.lookup path) (b.patches.lookup path) := lookup_joinPatches

theorem join_eq (h : a.baseEpoch = b.baseEpoch) :
    join a b = .ok ⟨joined a b, joinConflicts a b⟩ := by
  have hconflicts : ((allPaths a b).foldl (joinPath a b) (∅, [])).2 = joinConflicts a b := by
    rw [(foldl_joinPath _ _).1, List.nil_append, joinConflicts]
  rw [join, if_neg (not_not.mpr h), joined, joinPatches, ← hconflicts]

theorem conflictAt_eq_some {conflict : PathConflict} : conflictAt a b path = some conflict ↔
    ∃ l r, a.patches.lookup path = some l ∧ b.patches.lookup path = some r ∧ l ≠ r ∧
      conflict = conflictOf path l r := by
  rw [conflictAt]
  rcases a.patches.lookup path with _ | l <;> rcases b.patches.lookup path with _ | r
  · simp
  · simp
  · simp
  · by_cases heq : l = r
    · simp [heq]
    · simp [heq, eq_comm]

theorem mem_joinConflicts {conflict : PathConflict} : conflict ∈ joinConflicts a b ↔
    ∃ l r, a.patches.lookup conflict.path = some l ∧ b.patches.lookup conflict.path = some r ∧
      l ≠ r ∧ conflict = conflictOf conflict.path l r := by
  simp only [joinConflicts, List.mem_filterMap, conflictAt_eq_some]
  constructor
  · rintro ⟨path, -, l, r, hl, hr, hne, rfl⟩
    exact ⟨l, r, hl, hr, hne, rfl⟩
  · rintro ⟨l, r, hl, hr, hne, heq⟩
    exact ⟨conflict.path, mem_allPaths.mpr (.inl (by simp [hl])), l, r, hl, hr, hne, heq⟩

/-- A path in conflict is one that is changed in different ways. -/
theorem mem_map_path_joinConflicts : path ∈ (joinConflicts a b).map PathConflict.path ↔
    Conflicts (a.patches.lookup path) (b.patches.lookup path) := by
  simp only [List.mem_map, mem_joinConflicts]
  constructor
  · rintro ⟨conflict, ⟨l, r, hl, hr, hne, -⟩, rfl⟩
    exact ⟨l, r, hl, hr, hne⟩
  · rintro ⟨l, r, hl, hr, hne⟩
    exact ⟨conflictOf path l r, ⟨l, r, hl, hr, hne, rfl⟩, rfl⟩

theorem allPaths_comm (a b : PatchSet) : allPaths a b = allPaths b a := by
  rw [allPaths, allPaths, Finset.union_comm]

theorem conflictAt_comm (a b : PatchSet) : conflictAt a b = conflictAt b a := by
  funext path
  rw [conflictAt, conflictAt]
  rcases a.patches.lookup path with _ | l <;> rcases b.patches.lookup path with _ | r
  · rfl
  · rfl
  · rfl
  · simp only [eq_comm (a := l), conflictOf_comm path l r]

theorem joinChange_comm (left right : Option PatchValue) :
    joinChange left right = joinChange right left := by
  rcases left with _ | l <;> rcases right with _ | r
  · rfl
  · rfl
  · rfl
  · rw [joinChange, joinChange]
    by_cases heq : l = r
    · rw [heq]
    · rw [if_neg heq, if_neg (Ne.symm heq)]

theorem PatchSet.ext_lookup {ps ps' : PatchSet} (hepoch : ps.baseEpoch = ps'.baseEpoch)
    (h : ∀ path, ps.patches.lookup path = ps'.patches.lookup path) : ps = ps' := by
  obtain ⟨epoch, patches⟩ := ps
  obtain ⟨epoch', patches'⟩ := ps'
  congr
  exact Finmap.ext_lookup h

/-- A patch set joined with itself. -/
theorem join_self (a : PatchSet) : join a a = .ok ⟨a, []⟩ := by
  have hpatches : joined a a = a := by
    refine PatchSet.ext_lookup rfl fun path => ?_
    rw [lookup_joined]
    rcases a.patches.lookup path with _ | l <;> simp [joinChange]
  have hconflicts : joinConflicts a a = [] := by
    rw [List.eq_nil_iff_forall_not_mem]
    intro conflict hmem
    obtain ⟨l, r, hl, hr, hne, -⟩ := mem_joinConflicts.mp hmem
    exact hne (Option.some.inj (hl.symm.trans hr))
  rw [join_eq rfl, hpatches, hconflicts]

theorem join_comm (h : a.baseEpoch = b.baseEpoch) : join a b = join b a := by
  have hpatches : joined a b = joined b a := by
    refine PatchSet.ext_lookup h fun path => ?_
    rw [lookup_joined, lookup_joined, joinChange_comm]
  have hconflicts : joinConflicts a b = joinConflicts b a := by
    rw [joinConflicts, joinConflicts, allPaths_comm, conflictAt_comm]
  rw [join_eq h, join_eq h.symm, hpatches, hconflicts]

end Join

/-! ### Three patch sets -/

section Three

variable {a b c : PatchSet} {path : String}

/-- Join three patch sets, the first two of them first; a path is in conflict if it was in one of
both joins. -/
def joinLeft (a b c : PatchSet) : Except EpochMismatch (PatchSet × List String) := do
  let ab ← join a b
  let abc ← join ab.merged c
  return (abc.merged, ab.conflicts.map PathConflict.path ++ abc.conflicts.map PathConflict.path)

/-- Join three patch sets, the last two of them first. -/
def joinRight (a b c : PatchSet) : Except EpochMismatch (PatchSet × List String) := do
  let bc ← join b c
  let abc ← join a bc.merged
  return (abc.merged, bc.conflicts.map PathConflict.path ++ abc.conflicts.map PathConflict.path)

/-- The merged patches and the paths in conflict do not depend on the association. -/
def Associates (a b c : PatchSet) : Prop :=
  ∃ left right, joinLeft a b c = .ok left ∧ joinRight a b c = .ok right ∧ left.1 = right.1 ∧
    ∀ path, path ∈ left.2 ↔ path ∈ right.2

@[simp]
theorem conflicts_some {x y : PatchValue} : Conflicts (some x) (some y) ↔ x ≠ y := by
  simp [Conflicts]

@[simp]
theorem not_conflicts_none_left (y : Option PatchValue) : ¬ Conflicts none y := by
  simp [Conflicts]

@[simp]
theorem not_conflicts_none_right (x : Option PatchValue) : ¬ Conflicts x none := by
  simp [Conflicts]

@[simp]
theorem joinChange_none_left (y : Option PatchValue) : joinChange none y = y := by
  cases y <;> rfl

@[simp]
theorem joinChange_none_right (x : Option PatchValue) : joinChange x none = x := by
  cases x <;> rfl

theorem joinChange_some (x y : PatchValue) :
    joinChange (some x) (some y) = if x = y then some x else none := rfl

/-- Whether a path comes into conflict does not depend on the association. -/
theorem conflicts_assoc (x y z : Option PatchValue) :
    Conflicts x y ∨ Conflicts (joinChange x y) z ↔
      Conflicts y z ∨ Conflicts x (joinChange y z) := by
  rcases x with _ | x
  · simp
  rcases y with _ | y
  · simp
  rcases z with _ | z
  · simp
  rw [joinChange_some, joinChange_some]
  by_cases hxy : x = y <;> by_cases hyz : y = z
  · simp [hxy, hyz]
  · simp [hxy, hyz]
  · subst hyz
    simp [hxy]
  · simp [hxy, hyz]

/-- Three changes of a path are joined in the same way in both associations if the first and the
last one are the same. -/
theorem joinChange_assoc_iff (x y z : Option PatchValue) :
    joinChange (joinChange x y) z = joinChange x (joinChange y z) ↔
      ∀ x' y' z', x = some x' → y = some y' → z = some z' → x' = z' := by
  rcases x with _ | x
  · simp
  rcases y with _ | y
  · simp
  rcases z with _ | z
  · simp
  rw [joinChange_some, joinChange_some]
  by_cases hxy : x = y <;> by_cases hyz : y = z
  · subst hxy hyz
    simp
  · subst hxy
    simp [joinChange_some, hyz]
  · subst hyz
    simp [joinChange_some, hxy]
  · simp [hxy, hyz, eq_comm]

/-- A path without conflict has the same change in both associations. -/
theorem joinChange_assoc_of_not_conflicts {x y z : Option PatchValue}
    (hxy : ¬ Conflicts x y) (hz : ¬ Conflicts (joinChange x y) z) :
    joinChange (joinChange x y) z = joinChange x (joinChange y z) := by
  rw [joinChange_assoc_iff]
  rintro x y z rfl rfl rfl
  rw [conflicts_some, not_not] at hxy
  subst hxy
  rw [joinChange_some, if_pos rfl, conflicts_some, not_not] at hz
  exact hz

theorem joinLeft_eq (hab : a.baseEpoch = b.baseEpoch) (hbc : b.baseEpoch = c.baseEpoch) :
    joinLeft a b c = .ok (joined (joined a b) c, (joinConflicts a b).map PathConflict.path ++
      (joinConflicts (joined a b) c).map PathConflict.path) := by
  have houter : join (joined a b) c = _ := join_eq (hab.trans hbc)
  rw [joinLeft, join_eq hab]
  simp only [bind, Except.bind, houter]
  rfl

theorem joinRight_eq (hab : a.baseEpoch = b.baseEpoch) (hbc : b.baseEpoch = c.baseEpoch) :
    joinRight a b c = .ok (joined a (joined b c), (joinConflicts b c).map PathConflict.path ++
      (joinConflicts a (joined b c)).map PathConflict.path) := by
  have houter : join a (joined b c) = _ := join_eq hab
  rw [joinRight, join_eq hbc]
  simp only [bind, Except.bind, houter]
  rfl

/-- Patch sets that add one file, each with its own content. -/
def sampleAdd (n : ℕ) : PatchSet where
  baseEpoch := ⟨⟨BitVec.ofNat 160 9⟩⟩
  patches := (∅ : FiniteMap String PatchValue).insert "src/lib.rs"
    (.add ⟨BitVec.ofNat 160 n⟩ ⟨BitVec.ofNat 128 n⟩)

theorem baseEpoch_sampleAdd (m n : ℕ) : (sampleAdd m).baseEpoch = (sampleAdd n).baseEpoch := rfl

end Three

end Maw.Oplog
