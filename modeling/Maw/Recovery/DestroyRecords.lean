import Mathlib.Data.Finset.Sort
import Mathlib.Data.String.Basic
import Maw.Core.Types
import Maw.Library.ExceptRun
import Maw.Library.FiniteMap

/-!
# Destroy records

When a workspace is destroyed, a record is written under its name that says when and why and under
which ref its state is pinned. A pointer names the latest record.

## Main definitions

* `DestroyRecord`, `DestroyDir` — a record, and the records of a workspace.
* `DestroyDir.readLatestRecord`, `DestroyDir.removeRecord` — reading and removing them.
* `parseIso8601UtcSecs` — the seconds of a time that a record holds.

## Main results

* `DestroyDir.readRecord_of_removeRecord` — a removal leaves the other records.
-/

namespace Maw

inductive DestroyReason
  | destroy
  | mergeDestroy
  deriving DecidableEq, Repr

inductive RecordCaptureMode
  | dirtySnapshot
  | headOnly
  | none
  deriving DecidableEq, Repr

structure DestroyRecord where
  workspaceId : String
  destroyedAt : String
  finalHead : String
  finalHeadRef : Option String
  snapshotOid : Option String
  snapshotRef : Option String
  captureMode : RecordCaptureMode
  dirtyFiles : List String
  baseEpoch : String
  destroyReason : DestroyReason
  toolVersion : String
  deriving DecidableEq, Repr

/-- The ref under which the state is pinned, if it is. -/
def DestroyRecord.recoveryRef (record : DestroyRecord) : Option String :=
  record.snapshotRef.or record.finalHeadRef

/-! ### Times -/

def parseDigits (ds : List Char) : Option ℕ :=
  if ds ≠ [] ∧ ds.all Char.isDigit then some (Nat.ofDigitChars 10 ds 0) else none

/-- A number in decimal that may have a plus before it. -/
def parseNat : List Char → Option ℕ
  | '+' :: ds => parseDigits ds
  | ds => parseDigits ds

/-- A number in decimal that may have a sign. -/
def parseInt : List Char → Option ℤ
  | '-' :: ds => (parseDigits ds).map fun n => -(n : ℤ)
  | ds => (parseNat ds).map fun n => (n : ℤ)

/-- The days from the first of January 1970, unless the date is before it. -/
def daysFromCivil (y m d : ℤ) : Option ℕ :=
  if ¬ (1 ≤ m ∧ m ≤ 12) ∨ ¬ (1 ≤ d ∧ d ≤ 31) then none
  else
    let y := if m ≤ 2 then y - 1 else y
    let era := (if 0 ≤ y then y else y - 399).tdiv 400
    let yoe := y - era * 400
    let mp := if 2 < m then m - 3 else m + 9
    let doy := (153 * mp + 2).tdiv 5 + d - 1
    let doe := yoe * 365 + yoe.tdiv 4 - yoe.tdiv 100 + doy
    let days := era * 146097 + doe - 719468
    if 0 ≤ days then some days.toNat else none

/-- The seconds of a time in UTC. -/
def parseIso8601UtcSecs (ts : String) : Option ℕ := do
  let cs := ts.toList
  let part (start width : ℕ) := (cs.drop start).take width
  if cs.length < 19 ∨ cs[4]? ≠ some '-' ∨ cs[7]? ≠ some '-' ∨ cs[10]? ≠ some 'T' ∨
      cs[13]? ≠ some ':' ∨ cs[16]? ≠ some ':' then none
  let year ← parseInt (part 0 4)
  let month ← parseInt (part 5 2)
  let day ← parseInt (part 8 2)
  let hour ← parseNat (part 11 2)
  let minute ← parseNat (part 14 2)
  let second ← parseNat (part 17 2)
  if 24 ≤ hour ∨ 60 ≤ minute ∨ 60 ≤ second then none
  let days ← daysFromCivil year month day
  return days * 86400 + (hour * 3600 + minute * 60 + second)

def DestroyRecord.destroyedAtEpochSecs (record : DestroyRecord) : Option ℕ :=
  parseIso8601UtcSecs record.destroyedAt

example : parseIso8601UtcSecs "2026-03-07T00:05:47.278Z" = some 1772841947 := by decide +kernel

/-! ### The records of a workspace -/

structure LatestPointer where
  record : String
  destroyedAt : String
  deriving DecidableEq, Repr

/-- A file of JSON, which may not be what it should be. -/
inductive JsonFile (α : Type)
  | corrupt
  | parsed (value : α)
  deriving DecidableEq

/-- The directory with the records of a workspace. -/
structure DestroyDir where
  files : FiniteMap String (JsonFile DestroyRecord)
  latest : Option (JsonFile LatestPointer)

inductive RecordError
  | readRecord (filename : String)
  | readPointer
  deriving DecidableEq, Repr

def latestName : String := "latest.json"

/-- What follows the last dot of a name, if something stands before it. -/
def extension (name : String) : Option (List Char) :=
  let rest := name.toList.reverse.dropWhile (· ≠ '.')
  if rest.length ≤ 1 then none else some (name.toList.reverse.takeWhile (· ≠ '.')).reverse

def isJsonRecordName (name : String) : Bool :=
  (extension name).any (fun ext => ext.map Char.toLower = "json".toList) && name ≠ latestName &&
    !(name.toList.head? = some '.')

namespace DestroyDir

variable (dir : DestroyDir)

/-- The names of the records, in order. -/
def listRecordFiles : List String :=
  (dir.files.keys.filter fun name => isJsonRecordName name).sort (· ≤ ·)

def readRecord (filename : String) : Except RecordError DestroyRecord :=
  match dir.files.lookup filename with
  | some (.parsed record) => .ok record
  | _ => .error (.readRecord filename)

def readLatestPointer : Except RecordError (Option LatestPointer) :=
  match dir.latest with
  | none => .ok none
  | some .corrupt => .error .readPointer
  | some (.parsed pointer) => .ok (some pointer)

/-- The record that the pointer names, else the one with the last name. -/
def readLatestRecord : Except RecordError (Option DestroyRecord) := do
  match (← dir.readLatestPointer).map fun pointer => dir.readRecord pointer.record with
  | some (.ok record) => return some record
  | _ =>
    match dir.listRecordFiles.getLast? with
    | none => return none
    | some filename => return some (← dir.readRecord filename)

/-- Whether the pointer does not name a record that is left. -/
def isStale (removed : String) : Option LatestPointer → Bool
  | none => true
  | some pointer => pointer.record = removed || pointer.record ∉ dir.listRecordFiles

/-- Let the pointer name the newest record that is left. -/
def repoint (removed : String) : Except RecordError DestroyDir :=
  match dir.listRecordFiles.getLast? with
  | none => .ok { dir with latest := none }
  | some newest => do
    let pointer ← dir.readLatestPointer
    if dir.isStale removed pointer then
      let record ← dir.readRecord newest
      return { dir with latest := some (.parsed ⟨newest, record.destroyedAt⟩) }
    return dir

/-- Remove a record; says whether there was one. -/
def removeRecord (filename : String) : Except RecordError (DestroyDir × Bool) :=
  if filename ∉ dir.files then .ok (dir, false)
  else do
    let left ← ({ dir with files := dir.files.erase filename } : DestroyDir).repoint filename
    return (left, true)

variable {dir} {dir' : DestroyDir} {filename name : String} {removed : Bool}

/-- Fewer files have fewer records among them. -/
theorem listRecordFiles_mono
    (h : ∀ filename file, dir'.files.lookup filename = some file →
      dir.files.lookup filename = some file)
    (hname : name ∈ dir'.listRecordFiles) : name ∈ dir.listRecordFiles := by
  rw [listRecordFiles, Finset.mem_sort, Finset.mem_filter, Finmap.mem_keys] at hname ⊢
  obtain ⟨file, hfile⟩ := Finmap.mem_iff.mp hname.1
  exact ⟨FiniteMap.mem_of_lookup (h name file hfile), hname.2⟩

theorem files_of_repoint (h : dir.repoint filename = .ok dir') : dir'.files = dir.files := by
  rw [repoint] at h
  split at h
  · cases h
    rfl
  · obtain ⟨pointer, -, hrest⟩ := ExceptRun.bind_eq_ok.mp h
    split_ifs at hrest
    · obtain ⟨record, -, hdone⟩ := ExceptRun.bind_eq_ok.mp hrest
      cases hdone
      rfl
    · cases hrest
      rfl

/-- A removal removes the one file. -/
theorem lookup_of_removeRecord (h : dir.removeRecord filename = .ok (dir', removed)) :
    dir'.files.lookup name = if name = filename then none else dir.files.lookup name := by
  rw [removeRecord] at h
  split_ifs at h with hin
  · obtain ⟨left, hleft, hdone⟩ := ExceptRun.bind_eq_ok.mp h
    cases hdone
    rw [files_of_repoint hleft, FiniteMap.lookup_erase]
  · cases h
    split_ifs with hname
    · exact Finmap.lookup_eq_none.mpr (hname ▸ hin)
    · rfl

/-- A removal leaves the other records as they are, and the removed one is gone. -/
theorem readRecord_of_removeRecord (h : dir.removeRecord filename = .ok (dir', removed)) :
    dir'.readRecord name =
      if name = filename then .error (.readRecord name) else dir.readRecord name := by
  rw [readRecord, lookup_of_removeRecord h]
  split_ifs with hname
  · rfl
  · rfl

end DestroyDir

/-- Names in order. -/
def sortNames (names : Finset String) : List String := names.sort (· ≤ ·)

end Maw
