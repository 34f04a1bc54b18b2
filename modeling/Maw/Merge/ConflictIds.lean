import Maw.Library.SortedPrefix
import Maw.Merge.Resolve
import Maw.Oplog.Types

/-!
# Short ids of conflicts

Each conflict of a merge is shown with a short id, a hash of its path, and each of its atoms with
an id below it. Resolutions are given by id: the one of a whole file, or those of all its atoms.
The ids of different paths differ if and only if their hashes do, and then an answer changes the
path that its id was shown for and no other one.

## Main definitions

* `AtomRecord`, `ConflictWithId` — conflicts with their atoms and ids.
* `assignConflictIds`, `applyResolutions` — the ids, and what is made of the answers.
* `AddressesOne` — an id addresses one conflict.

## Main results

* `applyResolutions_spec` — what a path gets.
* `assignConflictIds_addressesOne_iff` — ids address one conflict if and only if no two paths
  have the same hash.
-/

open ExceptRun PointwiseFold

namespace Maw

/-- The short ids: a hash of four characters, and the ids below an id. -/
structure TerseId where
  hash : List Char → String
  length_hash : ∀ path, (hash path).length = 4
  childId : String → ℕ → String
  childId_eq : ∀ parent index, childId parent index = parent ++ "." ++ toString index

/-- A part of a file. Lines are counted from one; the last one is not included. -/
inductive Region
  | lines (start stop : UInt32)
  | astNode (nodeKind : String) (name : Option String) (startByte endByte : UInt32)
  | wholeFile
  deriving DecidableEq, Repr

/-- What one workspace makes of the region of an atom. -/
structure AtomEdit where
  workspace : String
  content : String
  deriving DecidableEq, Repr

/-- A conflict within a region of a file. -/
structure ConflictAtom where
  baseRegion : Region
  edits : List AtomEdit
  deriving DecidableEq, Repr

/-- The record of a conflict with its atoms. -/
structure AtomRecord extends ConflictRecord where
  atoms : List ConflictAtom
  deriving DecidableEq, Repr

/-- The record of a conflict with its ids. -/
structure ConflictWithId where
  id : String
  record : AtomRecord
  atomIds : List String
  deriving DecidableEq, Repr

namespace ConflictWithId

/-- All ids of the conflict. -/
def ids (c : ConflictWithId) : List String := c.id :: c.atomIds

def path (c : ConflictWithId) : Path := c.record.path

end ConflictWithId

/-- The id of a file. -/
def TerseId.fileId (terse : TerseId) (p : Path) : String := "cf-" ++ terse.hash p.slashed

/-- The ids of one conflict. The index of an atom is clamped to 32 bits. -/
def TerseId.assign (terse : TerseId) (record : AtomRecord) : ConflictWithId where
  id := terse.fileId record.path
  record := record
  atomIds := (List.range record.atoms.length).map fun i =>
    terse.childId (terse.fileId record.path) (min i (2 ^ 32 - 1))

/-- The ids of the conflicts of a merge. -/
def assignConflictIds (terse : TerseId) (conflicts : List AtomRecord) : List ConflictWithId :=
  conflicts.map terse.assign

/-! ### Resolutions -/

/-- An answer to a conflict: the version of a workspace, or the content of a file. -/
inductive ConflictAnswer
  | workspace (name : String)
  | content (path : String)
  deriving DecidableEq, Repr

/-- The answers by id. -/
abbrev Answers := FiniteMap String ConflictAnswer

inductive AnswerError
  | invalidWorkspaceName (name : String)
  | notASide (name : String) (available : List String)
  | noContent (name : String) (path : Path) (others : List String)
  | unreadable (path : String)
  | noBase (path : Path)
  | missingAtom (index : ℕ) (path : Path)
  | contentOfAtom
  | outOfRange
  | partialAtoms (id : String) (atomIds : List String)
  | unknownId (id : String) (valid : List String)
  deriving DecidableEq, Repr

/-- The files that an answer may name, and the directories of the workspaces. -/
structure AnswerFiles where
  workspaceDirs : List (WorkspaceId × String)
  isFile : String → Bool
  read : String → Option Bytes

namespace AnswerFiles

def joinPath (dir path : String) : String :=
  if dir.endsWith "/" then dir ++ path else dir ++ "/" ++ path

/-- The file that a path names: relative paths are looked up in the workspaces first. -/
def absolute (files : AnswerFiles) (path : String) : String :=
  if path.startsWith "/" then path
  else ((files.workspaceDirs.map fun d => joinPath d.2 path).find? files.isFile).getD path

end AnswerFiles

/-- The content of a whole file under an answer. -/
def resolveFileContent (files : AnswerFiles) (answer : ConflictAnswer) (record : AtomRecord) :
    Except AnswerError Bytes :=
  match answer with
  | .workspace name =>
    if ¬ WorkspaceId.validate ⟨name⟩ then .error (.invalidWorkspaceName name)
    else
      match record.sides.find? fun s => s.workspaceId = ⟨name⟩ with
      | none => .error (.notASide name (record.sides.map (·.workspaceId.name)))
      | some side =>
        match side.content with
        | some content => .ok content
        | none => .error (.noContent name record.path
            ((record.sides.filter fun s => s.workspaceId ≠ ⟨name⟩).map (·.workspaceId.name)))
  | .content path =>
    match files.read (files.absolute path) with
    | some content => .ok content
    | none => .error (.unreadable (files.absolute path))

/-- Lengths and offsets that do not fit in 32 bits are clamped. -/
def clampU32 (n : ℕ) : ℕ := min n (2 ^ 32 - 1)

/-- Where the lines of a text begin. -/
def lineStarts (text : Bytes) : List ℕ :=
  0 :: (text.zipIdx.filter fun b => b.1 = 0x0A).map (·.2 + 1)

/-- The byte offsets of a region. The subtraction of one from a line wraps around. -/
def regionByteRange (region : Region) (content : Bytes) : ℕ × ℕ :=
  match region with
  | .astNode _ _ startByte endByte => (startByte.toNat, endByte.toNat)
  | .lines start stop =>
    let starts := lineStarts (if isUtf8 content then content else [])
    let s := if 0 < start then starts[(start - 1).toNat]?.getD content.length else 0
    let e := starts[(stop - 1).toNat]?.getD content.length
    (clampU32 s, clampU32 e)
  | .wholeFile => (0, clampU32 content.length)

/-- The bytes from one offset to another one. -/
def slice (bytes : Bytes) (start stop : ℕ) : Except AnswerError Bytes :=
  if start ≤ stop ∧ stop ≤ bytes.length then .ok ((bytes.take stop).drop start)
  else .error .outOfRange

/-- An atom at its byte offsets, and the workspace that it is taken from. -/
structure PlacedAtom where
  start : ℕ
  stop : ℕ
  atom : ConflictAtom
  workspace : String

/-- The atoms with their answers, which must name workspaces. -/
def placeAtoms (path : Path) (base : Bytes) (atoms : List (ConflictAtom × ℕ))
    (answers : List (Option ConflictAnswer)) : Except AnswerError (List PlacedAtom) :=
  atoms.mapM fun (atom, i) =>
    match answers[i]?.join with
    | none => .error (.missingAtom i path)
    | some (.content _) => .error .contentOfAtom
    | some (.workspace name) =>
      let range := regionByteRange atom.baseRegion base
      .ok ⟨range.1, range.2, atom, name⟩

/-- Copy the base up to an atom and put the version of its workspace for it; an atom that the
workspace has no edit of keeps the base. -/
def spliceAtom (base : Bytes) (result : Bytes × ℕ) (placed : PlacedAtom) :
    Except AnswerError (Bytes × ℕ) := do
  let before ← slice base (min result.2 placed.start) (min placed.start base.length)
  match placed.atom.edits.find? fun e => e.workspace = placed.workspace with
  | some edit => return (result.1 ++ before ++ edit.content.toUTF8.toList, placed.stop)
  | none =>
    let kept ← slice base (min placed.start base.length) (min placed.stop base.length)
    return (result.1 ++ before ++ kept, placed.stop)

/-- The content of a file under the answers to all of its atoms. -/
def resolveAtoms (record : AtomRecord) (answers : List (Option ConflictAnswer)) :
    Except AnswerError Bytes :=
  match record.base with
  | none => .error (.noBase record.path)
  | some base => do
    let placed ← placeAtoms record.path base record.atoms.zipIdx answers
    let (result, pos) ← (placed.insertionSort fun a b => a.start ≤ b.start).foldlM
      (spliceAtom base) ([], 0)
    return result ++ base.drop pos

/-- The content of one conflict under the answers: that of its own id, or those of all its
atoms. -/
def resolveConflict (files : AnswerFiles) (answers : Answers) (c : ConflictWithId) :
    Except AnswerError (Option Bytes) :=
  match answers.lookup c.id with
  | some answer => some <$> resolveFileContent files answer c.record
  | none =>
    let atomAnswers := c.atomIds.map answers.lookup
    if c.atomIds = [] then .ok none
    else if atomAnswers.all Option.isSome then some <$> resolveAtoms c.record atomAnswers
    else if atomAnswers.any Option.isSome then .error (.partialAtoms c.id c.atomIds)
    else .ok none

/-- One conflict after the others: its content, or one that remains. -/
def applyToConflict (files : AnswerFiles) (answers : Answers)
    (s : FiniteMap Path Bytes × List ConflictWithId) (c : ConflictWithId) :
    Except AnswerError (FiniteMap Path Bytes × List ConflictWithId) := do
  match ← resolveConflict files answers c with
  | some content => return (s.1.insert c.path content, s.2)
  | none => return (s.1, s.2 ++ [c])

/-- The resolved contents and the conflicts that remain. Every id of an answer must be one of a
conflict. -/
def applyResolutions (files : AnswerFiles) (conflicts : List ConflictWithId) (answers : Answers) :
    Except AnswerError (FiniteMap Path Bytes × List ConflictWithId) := do
  let result ← conflicts.foldlM (applyToConflict files answers) (∅, [])
  match answers.sortedKeys.find? fun id => !conflicts.any fun c => decide (id ∈ c.ids) with
  | some id => throw (.unknownId id (conflicts.map (·.id)))
  | none => return result

/-! ### What an id addresses -/

/-- The id of the conflict was answered, or those of all its atoms. -/
def Answered (answers : Answers) (c : ConflictWithId) : Prop :=
  answers.lookup c.id ≠ none ∨ c.atomIds ≠ [] ∧ ∀ id ∈ c.atomIds, answers.lookup id ≠ none

/-- An id addresses one conflict. -/
structure AddressesOne (files : AnswerFiles) (conflicts : List ConflictWithId) : Prop where
  /-- Different paths share no id. -/
  distinct : ∀ c ∈ conflicts, ∀ c' ∈ conflicts, c.path ≠ c'.path →
    ∀ id ∈ c.ids, id ∉ c'.ids
  /-- The answers to the ids of one path do not change another path. -/
  frame : ∀ c ∈ conflicts, ∀ answers answers' result result',
    (∀ id, id ∉ c.ids → answers.lookup id = answers'.lookup id) →
    applyResolutions files conflicts answers = .ok result →
    applyResolutions files conflicts answers' = .ok result' →
    ∀ p, p ≠ c.path → result.1.lookup p = result'.1.lookup p
  /-- The paths that were answered are written, with the content of their own answer. -/
  written : ∀ answers result, applyResolutions files conflicts answers = .ok result →
    (∀ p, p ∈ result.1 ↔ ∃ c ∈ conflicts, c.path = p ∧ Answered answers c) ∧
      ∀ c ∈ conflicts, Answered answers c → ∃ content,
        resolveConflict files answers c = .ok (some content) ∧
          result.1.lookup c.path = some content

section Ids

variable {terse : TerseId} {r r' : AtomRecord}

@[simp]
theorem TerseId.length_fileId (p : Path) : (terse.fileId p).length = 7 := by
  rw [fileId, String.length_append, terse.length_hash]
  rfl

theorem TerseId.fileId_inj {p q : Path} :
    terse.fileId p = terse.fileId q ↔ terse.hash p.slashed = terse.hash q.slashed := by
  rw [fileId, fileId]
  exact String.append_right_inj _

theorem TerseId.mem_atomIds {id : String} (h : id ∈ (terse.assign r).atomIds) :
    ∃ i : ℕ, id = terse.fileId r.path ++ "." ++ toString i := by
  obtain ⟨i, -, rfl⟩ := List.mem_map.mp h
  exact ⟨_, terse.childId_eq _ _⟩

/-- An id begins with the id of its file. -/
theorem TerseId.exists_append {id : String} (h : id ∈ (terse.assign r).ids) :
    ∃ rest : String, id = terse.fileId r.path ++ rest := by
  rcases List.mem_cons.mp h with rfl | h
  · exact ⟨"", (String.append_empty ..).symm⟩
  · obtain ⟨i, rfl⟩ := TerseId.mem_atomIds h
    exact ⟨"." ++ toString i, String.append_assoc ..⟩

/-- Two conflicts share an id if and only if their paths have the same hash. -/
theorem TerseId.disjoint_ids_iff :
    (∀ id ∈ (terse.assign r).ids, id ∉ (terse.assign r').ids) ↔
      terse.hash r.path.slashed ≠ terse.hash r'.path.slashed := by
  constructor
  · intro h heq
    have hid : terse.fileId r.path = terse.fileId r'.path := fileId_inj.mpr heq
    have hmem : terse.fileId r.path ∈ (terse.assign r').ids := by
      rw [hid]
      exact List.mem_cons_self
    exact h _ List.mem_cons_self hmem
  · intro h id hid hid'
    obtain ⟨rest, rfl⟩ := exists_append hid
    obtain ⟨rest', heq⟩ := exists_append hid'
    have hlist : (terse.fileId r.path).toList ++ rest.toList =
        (terse.fileId r'.path).toList ++ rest'.toList := by
      rw [← String.toList_append, ← String.toList_append, heq]
    have hlength : (terse.fileId r.path).toList.length = (terse.fileId r'.path).toList.length := by
      rw [String.length_toList, String.length_toList, length_fileId, length_fileId]
    have hfile := (List.append_inj hlist hlength).1
    exact h (fileId_inj.mp (String.toList_injective hfile))

end Ids

section Answers

variable {files : AnswerFiles} {answers answers' : Answers} {c : ConflictWithId}
  {conflicts : List ConflictWithId} {result : FiniteMap Path Bytes × List ConflictWithId}

/-- A conflict is resolved from the answers to its own ids. -/
theorem resolveConflict_congr (h : ∀ id ∈ c.ids, answers.lookup id = answers'.lookup id) :
    resolveConflict files answers c = resolveConflict files answers' c := by
  have hid : answers.lookup c.id = answers'.lookup c.id := h _ List.mem_cons_self
  have hatoms : c.atomIds.map answers.lookup = c.atomIds.map answers'.lookup :=
    List.map_congr_left fun id hmem => h id (List.mem_cons_of_mem _ hmem)
  unfold resolveConflict
  rw [hid, hatoms]

/-- A conflict has a content if and only if it was answered. -/
theorem resolveConflict_isSome {o : Option Bytes} (h : resolveConflict files answers c = .ok o) :
    o ≠ none ↔ Answered answers c := by
  unfold resolveConflict at h
  unfold Answered
  have hall : (c.atomIds.map answers.lookup).all Option.isSome = true ↔
      ∀ id ∈ c.atomIds, answers.lookup id ≠ none := by
    simp [Option.isSome_iff_ne_none]
  split at h
  · next answer hanswer =>
    obtain ⟨content, -, rfl⟩ := map_eq_ok.mp h
    simp [hanswer]
  · next hanswer =>
    simp only at h
    split_ifs at h with hempty hatoms hany
    · cases h
      simp [hanswer, hempty]
    · obtain ⟨content, -, rfl⟩ := map_eq_ok.mp h
      exact iff_of_true (Option.some_ne_none _) (.inr ⟨hempty, hall.mp hatoms⟩)
    · cases h
      simp [hanswer, ← hall, hatoms]

theorem applyToConflict_eq_ok {s s' : FiniteMap Path Bytes × List ConflictWithId} :
    applyToConflict files answers s c = .ok s' ↔ ∃ o, resolveConflict files answers c = .ok o ∧
      s' = o.elim (s.1, s.2 ++ [c]) fun content => (s.1.insert c.path content, s.2) := by
  rw [applyToConflict, bind_eq_ok]
  refine exists_congr fun o => and_congr_right fun _ => ?_
  cases o with
  | none => exact pure_eq_ok.trans eq_comm
  | some content => exact pure_eq_ok.trans eq_comm

/-- What a path gets: the content of its own conflict. -/
theorem applyResolutions_spec (hpaths : (conflicts.map ConflictWithId.path).Nodup)
    (h : applyResolutions files conflicts answers = .ok result) (p : Path) :
    (itemAt ConflictWithId.path conflicts p).elim (result.1.lookup p = none) fun c =>
      resolveConflict files answers c = .ok (result.1.lookup p) := by
  rw [applyResolutions, bind_eq_ok] at h
  obtain ⟨s, hfold, h⟩ := h
  have hresult : s = result := by
    split at h
    · exact absurd h throw_ne_ok
    · exact pure_eq_ok.mp h
  subst hresult
  have hview := foldlM_view (fun (s : FiniteMap Path Bytes × List ConflictWithId) p =>
      s.1.lookup p) ConflictWithId.path
    (fun c v v' => ∃ o, resolveConflict files answers c = .ok o ∧ v' = o.or v) ?_ ?_ hpaths hfold p
  · cases hitem : itemAt ConflictWithId.path conflicts p with
    | none => simpa [hitem] using hview
    | some c =>
      simp only [hitem, Option.elim_some] at hview ⊢
      obtain ⟨o, ho, hlookup⟩ := hview
      rw [ho, hlookup, Finmap.lookup_empty, Option.or_none]
  · intro s c s' hstep
    obtain ⟨o, ho, rfl⟩ := applyToConflict_eq_ok.mp hstep
    refine ⟨o, ho, ?_⟩
    cases o with
    | none => rfl
    | some content => exact Finmap.lookup_insert ..
  · intro s c s' hstep p hp
    obtain ⟨o, -, rfl⟩ := applyToConflict_eq_ok.mp hstep
    cases o with
    | none => rfl
    | some content => exact Finmap.lookup_insert_of_ne _ (Ne.symm hp)

/-- What the path of a conflict gets. -/
theorem applyResolutions_of_mem (hpaths : (conflicts.map ConflictWithId.path).Nodup)
    (h : applyResolutions files conflicts answers = .ok result) (hc : c ∈ conflicts) :
    resolveConflict files answers c = .ok (result.1.lookup c.path) := by
  have hspec := applyResolutions_spec hpaths h c.path
  rwa [itemAt_of_mem ConflictWithId.path hpaths hc, Option.elim_some] at hspec

/-- Only the paths of conflicts get a content. -/
theorem exists_of_mem_applyResolutions (hpaths : (conflicts.map ConflictWithId.path).Nodup)
    (h : applyResolutions files conflicts answers = .ok result) {p : Path} (hp : p ∈ result.1) :
    ∃ c ∈ conflicts, c.path = p := by
  have hspec := applyResolutions_spec hpaths h p
  cases hitem : itemAt ConflictWithId.path conflicts p with
  | none =>
    rw [hitem, Option.elim_none] at hspec
    exact absurd hspec (fun hnone => Finmap.lookup_eq_none.mp hnone hp)
  | some c => exact ⟨c, mem_of_itemAt hitem, key_of_itemAt hitem⟩

theorem applyResolutions_written (hpaths : (conflicts.map ConflictWithId.path).Nodup)
    (h : applyResolutions files conflicts answers = .ok result) :
    (∀ p, p ∈ result.1 ↔ ∃ c ∈ conflicts, c.path = p ∧ Answered answers c) ∧
      ∀ c ∈ conflicts, Answered answers c → ∃ content,
        resolveConflict files answers c = .ok (some content) ∧
          result.1.lookup c.path = some content := by
  refine ⟨fun p => ⟨fun hp => ?_, ?_⟩, fun c hc hanswered => ?_⟩
  · obtain ⟨c, hc, rfl⟩ := exists_of_mem_applyResolutions hpaths h hp
    have hok := applyResolutions_of_mem hpaths h hc
    refine ⟨c, hc, rfl, (resolveConflict_isSome hok).mp fun hnone => ?_⟩
    exact Finmap.lookup_eq_none.mp hnone hp
  · rintro ⟨c, hc, rfl, hanswered⟩
    have hok := applyResolutions_of_mem hpaths h hc
    by_contra hp
    exact (resolveConflict_isSome hok).mpr hanswered (Finmap.lookup_eq_none.mpr hp)
  · have hok := applyResolutions_of_mem hpaths h hc
    obtain ⟨content, hcontent⟩ :=
      Option.ne_none_iff_exists'.mp ((resolveConflict_isSome hok).mpr hanswered)
    exact ⟨content, hcontent ▸ hok, hcontent⟩

/-- The answers to the ids of one path do not change another path, if they share no id. -/
theorem applyResolutions_frame {result' : FiniteMap Path Bytes × List ConflictWithId}
    (hpaths : (conflicts.map ConflictWithId.path).Nodup) {c : ConflictWithId}
    (hdistinct : ∀ c' ∈ conflicts, c.path ≠ c'.path → ∀ id ∈ c.ids, id ∉ c'.ids)
    (hsame : ∀ id, id ∉ c.ids → answers.lookup id = answers'.lookup id)
    (h : applyResolutions files conflicts answers = .ok result)
    (h' : applyResolutions files conflicts answers' = .ok result') {p : Path}
    (hp : p ≠ c.path) : result.1.lookup p = result'.1.lookup p := by
  have hspec := applyResolutions_spec hpaths h p
  have hspec' := applyResolutions_spec hpaths h' p
  cases hitem : itemAt ConflictWithId.path conflicts p with
  | none =>
    rw [hitem, Option.elim_none] at hspec hspec'
    rw [hspec, hspec']
  | some d =>
    rw [hitem, Option.elim_some] at hspec hspec'
    have hne : c.path ≠ d.path := by
      rw [key_of_itemAt hitem]
      exact hp.symm
    have hcongr : resolveConflict files answers d = resolveConflict files answers' d := by
      refine resolveConflict_congr fun id hid => hsame id fun hmem => ?_
      exact hdistinct d (mem_of_itemAt hitem) hne id hmem hid
    rw [hspec, hspec'] at hcongr
    exact Except.ok.inj hcongr

end Answers

/-- Ids address one conflict each if and only if no two of the paths have the same hash. -/
theorem assignConflictIds_addressesOne_iff (terse : TerseId) (files : AnswerFiles)
    (records : List AtomRecord) (hpaths : (records.map (·.path)).Nodup) :
    AddressesOne files (assignConflictIds terse records) ↔
      ∀ r ∈ records, ∀ r' ∈ records, r.path ≠ r'.path →
        terse.hash r.path.slashed ≠ terse.hash r'.path.slashed := by
  have hnodup : ((assignConflictIds terse records).map ConflictWithId.path).Nodup := by
    rw [assignConflictIds, List.map_map]
    exact hpaths
  have hdistinct_iff : (∀ c ∈ assignConflictIds terse records,
        ∀ c' ∈ assignConflictIds terse records, c.path ≠ c'.path →
          ∀ id ∈ c.ids, id ∉ c'.ids) ↔
      ∀ r ∈ records, ∀ r' ∈ records, r.path ≠ r'.path →
        terse.hash r.path.slashed ≠ terse.hash r'.path.slashed := by
    simp only [assignConflictIds, List.forall_mem_map]
    refine forall₂_congr fun r _ => forall₂_congr fun r' _ => imp_congr_right fun _ => ?_
    exact TerseId.disjoint_ids_iff
  constructor
  · exact fun h => hdistinct_iff.mp h.distinct
  · intro h
    have hdistinct := hdistinct_iff.mpr h
    refine ⟨hdistinct, ?_, fun answers result hok => applyResolutions_written hnodup hok⟩
    intro c hc answers answers' result result' hsame hok hok' p hp
    exact applyResolutions_frame hnodup (hdistinct c hc) hsame hok hok' hp

/-! ### Two paths with the same hash -/

section Sample

/-- A hash that tells paths apart by their first letter. -/
def sampleTerse : TerseId where
  hash path := "000" ++ String.singleton (path.headD '0')
  length_hash path := by
    rw [String.length_append, String.length_singleton]
    rfl
  childId parent index := parent ++ "." ++ toString index
  childId_eq _ _ := rfl

private def sampleFiles : AnswerFiles := ⟨[], fun _ => false, fun _ => none⟩

/-- A path that alice and bob have different contents for. -/
def sampleConflict (name : Component) : AtomRecord where
  path := ⟨[name], by simp⟩
  base := none
  sides := [⟨⟨"alice"⟩, .added, some [1]⟩, ⟨⟨"bob"⟩, .added, some [2]⟩]
  reason := .addAddDifferent
  atoms := []

/-- Ids that address one conflict each. -/
theorem assignConflictIds_addressesOne_sample : AddressesOne sampleFiles
    (assignConflictIds sampleTerse [sampleConflict (.lit "a"), sampleConflict (.lit "b")]) :=
  (assignConflictIds_addressesOne_iff sampleTerse sampleFiles
    [sampleConflict (.lit "a"), sampleConflict (.lit "b")] (by decide)).mpr (by decide)

/-- One id resolves two conflicts. -/
theorem one_id_resolves_two :
    let conflicts := assignConflictIds sampleTerse
      [sampleConflict (.lit "a"), sampleConflict (.lit "ab")]
    (∃ result, applyResolutions sampleFiles conflicts
        ((∅ : Answers).insert "cf-000a" (.workspace "alice")) = .ok result ∧
      result.1.lookup ⟨[.lit "a"], by simp⟩ = some [1] ∧
      result.1.lookup ⟨[.lit "ab"], by simp⟩ = some [1]) ∧
    ¬ AddressesOne sampleFiles conflicts := by
  refine ⟨⟨_, rfl, rfl, rfl⟩, fun h => ?_⟩
  exact h.distinct _ List.mem_cons_self _ (List.mem_cons_of_mem _ List.mem_cons_self) (by decide)
    "cf-000a" (by decide) (by decide)

end Sample

end Maw
