import Maw.Library.Triples
import Maw.Oplog.Types
import Maw.Recovery.DestroyRecords
import Maw.Worktree.Capture

/-!
# The files of destroy records

A destroy record is a file whose name is the time of the destroy, and the pointer to the latest
record is a file beside it. Each is written under another name first and then renamed. The calls
that write and remove records are programs of file operations; for each, the files are given that it
leaves when it is cut off or when an operation fails.

## Main definitions

* `Timestamp`, `recordName` — times, and the names of the files.
* `Disk`, `Agree` — the files of a directory, and those that are read.
* `FileOp`, `writeDestroyRecord`, `removeRecord` — the calls, operation by operation.

## Main results

* `recordName_lt` — the names of records are in the order of their times.
* `through_writeDestroyRecord`, `through_removeRecord` — what a call leaves, wherever it is cut off.
-/

open Interleaved

namespace Maw.LatestRecord

/-! ### Times and names -/

section Names

/-- How a time is written: a digit for each `d`. -/
def layout : List Char := "dddd-dd-ddTdd:dd:dd.dddddddddZ".toList

/-- The text has digits and the other characters where the layout has them. -/
def Fits : List Char → List Char → Prop
  | [], [] => True
  | l :: ls, c :: cs => (if l = 'd' then c.isDigit = true else c = l) ∧ Fits ls cs
  | _, _ => False

instance decidableFits : (ls cs : List Char) → Decidable (Fits ls cs)
  | [], [] => isTrue trivial
  | l :: ls, c :: cs =>
    have := decidableFits ls cs
    inferInstanceAs (Decidable ((if l = 'd' then c.isDigit = true else c = l) ∧ Fits ls cs))
  | [], _ :: _ => isFalse id
  | _ :: _, [] => isFalse id

/-- A time as it is written. -/
structure Timestamp where
  text : String
  fits : Fits layout text.toList

/-- Colons do not stand in the name of a file. -/
def dash (c : Char) : Char := if c = ':' then '-' else c

def recordName (t : Timestamp) : String :=
  String.ofList (t.text.toList.map dash) ++ ".json"

/-- The file that is written before it gets its name. -/
def tempName (name : String) : String := "." ++ name ++ ".tmp"

/-- Texts of one layout are in the order of their names. -/
theorem map_dash_lt {ls a b : List Char} (ha : Fits ls a) (hb : Fits ls b) (h : a < b)
    (tail : List Char) : a.map dash ++ tail < b.map dash ++ tail := by
  induction ls generalizing a b with
  | nil =>
    cases a with
    | nil =>
      cases b with
      | nil => exact absurd h (lt_irrefl _)
      | cons y b => exact hb.elim
    | cons x a => exact ha.elim
  | cons l ls ih =>
    cases a with
    | nil => exact ha.elim
    | cons x a =>
      cases b with
      | nil => exact hb.elim
      | cons y b =>
        simp only [List.map_cons, List.cons_append]
        rw [List.cons_lt_cons_iff] at h ⊢
        rcases h with hlt | ⟨rfl, hlt⟩
        · obtain ⟨hx, -⟩ := ha
          obtain ⟨hy, -⟩ := hb
          split_ifs at hx hy with hl
          · have hdash (c : Char) (hc : c.isDigit = true) : dash c = c :=
              if_neg fun hcolon => by rw [hcolon] at hc; exact absurd hc (by decide)
            rw [hdash x hx, hdash y hy]
            exact Or.inl hlt
          · rw [hx, hy] at hlt
            exact absurd hlt (lt_irrefl _)
        · exact Or.inr ⟨rfl, ih ha.2 hb.2 hlt⟩

theorem recordName_lt {t t' : Timestamp} (h : t.text < t'.text) : recordName t < recordName t' := by
  rw [String.lt_iff_toList_lt] at h ⊢
  simp only [recordName, String.toList_append, String.toList_ofList]
  exact map_dash_lt t.fits t'.fits h _

theorem recordName_lt_iff {t t' : Timestamp} :
    recordName t < recordName t' ↔ t.text < t'.text := by
  refine ⟨fun h => ?_, recordName_lt⟩
  rcases lt_trichotomy t.text t'.text with hlt | heq | hlt
  · exact hlt
  · exact absurd h (by rw [recordName, recordName, heq]; exact lt_irrefl _)
  · exact absurd (h.trans (recordName_lt hlt)) (lt_irrefl _)

theorem Timestamp.exists_toList (t : Timestamp) :
    ∃ c cs, t.text.toList = c :: cs ∧ c.isDigit = true := by
  have hfits := t.fits
  cases htext : t.text.toList with
  | nil =>
    rw [htext] at hfits
    exact hfits.elim
  | cons c cs =>
    rw [htext] at hfits
    exact ⟨c, cs, rfl, hfits.1⟩

theorem toList_recordName (t : Timestamp) :
    (recordName t).toList = t.text.toList.map dash ++ ['.', 'j', 's', 'o', 'n'] := by
  rw [recordName, String.toList_append, String.toList_ofList]
  rfl

theorem extension_recordName (t : Timestamp) : extension (recordName t) = some "json".toList := by
  obtain ⟨c, cs, htext, -⟩ := t.exists_toList
  have hrev : (recordName t).toList.reverse =
      'n' :: 'o' :: 's' :: 'j' :: '.' :: (cs.map dash).reverse ++ [dash c] := by
    rw [toList_recordName, htext]
    simp
  rw [extension, hrev]
  simp

theorem isJsonRecordName_recordName (t : Timestamp) : isJsonRecordName (recordName t) = true := by
  obtain ⟨c, cs, htext, hdigit⟩ := t.exists_toList
  have hhead : (recordName t).toList.head? = some (dash c) := by
    rw [toList_recordName, htext]
    rfl
  have hdash : dash c = c := by
    refine if_neg ?_
    rintro rfl
    exact absurd hdigit (by decide)
  have hlatest : recordName t ≠ latestName := by
    intro heq
    rw [heq, hdash] at hhead
    obtain rfl : 'l' = c := Option.some.inj hhead
    exact absurd hdigit (by decide)
  have hdot : c ≠ '.' := by
    rintro rfl
    exact absurd hdigit (by decide)
  rw [isJsonRecordName, extension_recordName, hhead, hdash]
  simp [hlatest, hdot]

theorem isJsonRecordName_tempName (name : String) : isJsonRecordName (tempName name) = false := by
  have hhead : (tempName name).toList.head? = some '.' := by
    simp [tempName]
  rw [isJsonRecordName, hhead]
  simp

theorem isJsonRecordName_latestName : isJsonRecordName latestName = false := by decide

end Names

/-! ### The files -/

section Files

/-- What a file holds; one that was not written to its end is torn. -/
inductive Contents
  | torn
  | record (value : DestroyRecord)
  | pointer (value : LatestPointer)
  deriving DecidableEq

def Contents.asRecord : Contents → JsonFile DestroyRecord
  | record value => .parsed value
  | torn | pointer _ => .corrupt

def Contents.asPointer : Contents → JsonFile LatestPointer
  | pointer value => .parsed value
  | torn | record _ => .corrupt

/-- The files of the directory. -/
abbrev Disk := FiniteMap String Contents

def Disk.without (d : Disk) (name : String) : Disk := d.erase name

/-- The directory as it is read. -/
def Disk.dir (d : Disk) : DestroyDir where
  files := .ofFun d.keys fun name => (d.lookup name).map Contents.asRecord
  latest := (d.lookup latestName).map Contents.asPointer

variable {d d' : Disk} {name : String}

theorem Disk.lookup_files : d.dir.files.lookup name = (d.lookup name).map Contents.asRecord := by
  rw [Disk.dir, FiniteMap.lookup_ofFun]
  split_ifs with hname
  · rfl
  · rw [Finmap.mem_keys] at hname
    rw [Finmap.lookup_eq_none.mpr hname]
    rfl

theorem Disk.mem_files : name ∈ d.dir.files ↔ name ∈ d := by
  rw [← Finmap.lookup_isSome, lookup_files, Option.isSome_map, Finmap.lookup_isSome]

theorem Disk.mem_listRecordFiles :
    name ∈ d.dir.listRecordFiles ↔ isJsonRecordName name = true ∧ name ∈ d := by
  rw [DestroyDir.listRecordFiles, Finset.mem_sort, Finset.mem_filter, Finmap.mem_keys, mem_files,
    and_comm]

theorem Disk.readRecord_eq_ok {record : DestroyRecord} :
    d.dir.readRecord name = .ok record ↔ d.lookup name = some (.record record) := by
  rw [DestroyDir.readRecord, lookup_files]
  rcases d.lookup name with - | contents
  · simp
  · cases contents <;> simp [Contents.asRecord]

theorem Disk.readLatestPointer_eq_ok {pointer : LatestPointer} :
    d.dir.readLatestPointer = .ok (some pointer) ↔
      d.lookup latestName = some (.pointer pointer) := by
  rw [DestroyDir.readLatestPointer, Disk.dir]
  rcases d.lookup latestName with - | contents
  · simp
  · cases contents <;> simp [Contents.asPointer]

/-- The files that a reader may come to. -/
def Visible (name : String) : Prop := isJsonRecordName name = true ∨ name = latestName

/-- Both have the same visible files. -/
def Agree (d d' : Disk) : Prop := ∀ name, Visible name → d'.lookup name = d.lookup name

theorem Agree.refl (d : Disk) : Agree d d := fun _ _ => rfl

theorem Agree.symm (h : Agree d d') : Agree d' d := fun name hname => (h name hname).symm

theorem Agree.trans {d'' : Disk} (h : Agree d d') (h' : Agree d' d'') : Agree d d'' :=
  fun name hname => (h' name hname).trans (h name hname)

theorem Agree.insert (h : Agree d d') (name : String) (contents : Contents) :
    Agree (d.insert name contents) (d'.insert name contents) := by
  intro other hother
  rw [FiniteMap.lookup_insert, FiniteMap.lookup_insert, h other hother]

theorem Agree.without (h : Agree d d') (name : String) :
    Agree (d.without name) (d'.without name) := by
  intro other hother
  rw [Disk.without, Disk.without, FiniteMap.lookup_erase, FiniteMap.lookup_erase, h other hother]

theorem not_visible_tempName : ¬ Visible (tempName name) := by
  rintro (hjson | hlatest)
  · rw [isJsonRecordName_tempName] at hjson
    cases hjson
  · have hhead : (tempName name).toList.head? = some '.' := by
      simp [tempName]
    rw [hlatest] at hhead
    exact absurd hhead (by decide)

/-- Files under other names are not seen. -/
theorem Agree.insert_temp (h : Agree d d') (contents : Contents) :
    Agree d (d'.insert (tempName name) contents) := by
  intro other hother
  rw [FiniteMap.lookup_insert, if_neg, h other hother]
  rintro rfl
  exact not_visible_tempName hother

theorem Agree.erase_temp (h : Agree d d') : Agree d (d'.erase (tempName name)) := by
  intro other hother
  rw [FiniteMap.lookup_erase, if_neg, h other hother]
  rintro rfl
  exact not_visible_tempName hother

theorem Agree.mem_listRecordFiles (h : Agree d d') :
    name ∈ d'.dir.listRecordFiles ↔ name ∈ d.dir.listRecordFiles := by
  rw [Disk.mem_listRecordFiles, Disk.mem_listRecordFiles]
  refine and_congr_right fun hjson => ?_
  rw [← Finmap.lookup_isSome, ← Finmap.lookup_isSome, h name (.inl hjson)]

theorem Agree.listRecordFiles (h : Agree d d') :
    d'.dir.listRecordFiles = d.dir.listRecordFiles := by
  have hfilter : (d'.dir.files.keys.filter fun name => isJsonRecordName name) =
      d.dir.files.keys.filter fun name => isJsonRecordName name := by
    ext name
    have hmem : name ∈ d'.dir.listRecordFiles ↔ name ∈ d.dir.listRecordFiles :=
      h.mem_listRecordFiles
    rwa [DestroyDir.listRecordFiles, DestroyDir.listRecordFiles, Finset.mem_sort, Finset.mem_sort]
      at hmem
  rw [DestroyDir.listRecordFiles, DestroyDir.listRecordFiles, hfilter]

theorem Agree.readRecord (h : Agree d d') (hname : isJsonRecordName name = true) :
    d'.dir.readRecord name = d.dir.readRecord name := by
  rw [DestroyDir.readRecord, DestroyDir.readRecord, Disk.lookup_files, Disk.lookup_files,
    h name (.inl hname)]

end Files

/-! ### The calls -/

section Calls

/-- The operations on the files of the directory. -/
inductive FileOp
  | createDirAll
  | create (name : String)
  | write (name : String) (contents : Contents)
  | rename (source target : String)
  | pathExists (name : String)
  | removeFile (name : String)
  | removeDir
  | listRecordFiles
  | readLatestPointer
  | readRecord (name : String)

abbrev FileOp.Ret : FileOp → Type
  | pathExists _ => Bool
  | listRecordFiles => List String
  | readLatestPointer => Option LatestPointer
  | readRecord _ => DestroyRecord
  | createDirAll | create _ | write _ _ | rename _ _ | removeFile _ | removeDir => Unit

namespace FileOp

/-- What an operation returns and leaves. A path that cannot be looked at counts as missing, and a
directory that holds nothing is read like one that is not there. -/
def Takes : (op : FileOp) → Disk → op.Ret → Disk → Prop
  | createDirAll, d, _, d' => d' = d
  | create name, d, _, d' => d' = d.insert name .torn
  | write name contents, d, _, d' => d' = d.insert name contents
  | rename source target, d, _, d' =>
    ∃ contents, d.lookup source = some contents ∧ d' = (d.erase source).insert target contents
  | pathExists name, d, found, d' => d' = d ∧ (found = true → name ∈ d)
  | removeFile name, d, _, d' => name ∈ d ∧ d' = d.without name
  | removeDir, d, _, d' => d = ∅ ∧ d' = d
  | listRecordFiles, d, names, d' => d' = d ∧ names = d.dir.listRecordFiles
  | readLatestPointer, d, pointer, d' => d' = d ∧ d.dir.readLatestPointer = .ok pointer
  | readRecord name, d, record, d' => d' = d ∧ d.dir.readRecord name = .ok record

def MayFail : FileOp → Prop
  | pathExists _ => False
  | _ => True

/-- An operation that fails leaves the files as they are. -/
def Exec (op : FileOp) (d : Disk) : Except FileOp op.Ret → Disk → Prop
  | .ok a, d' => op.Takes d a d'
  | .error e, d' => op.MayFail ∧ e = op ∧ d' = d

end FileOp

abbrev FileProg := Fallible FileOp FileOp FileOp.Ret

open FileOp

def writeJsonAtomic (name : String) (contents : Contents) : FileProg Unit := do
  attempt createDirAll
  attempt (create (tempName name))
  attempt (write (tempName name) contents)
  attempt (rename (tempName name) name)

/-- What a destroy records. -/
structure Destruction where
  workspaceName : String
  baseEpoch : GitOid
  finalHead : GitOid
  capture : Option CaptureResult
  destroyReason : DestroyReason

def toolVersion : String := "1.0.0-pre.12"

def Destruction.record (args : Destruction) (destroyedAt : Timestamp) : DestroyRecord :=
  let record : DestroyRecord :=
    { workspaceId := args.workspaceName
      destroyedAt := destroyedAt.text
      finalHead := args.finalHead.asStr
      finalHeadRef := none
      snapshotOid := none
      snapshotRef := none
      captureMode := .none
      dirtyFiles := []
      baseEpoch := args.baseEpoch.asStr
      destroyReason := args.destroyReason
      toolVersion := toolVersion }
  match args.capture with
  | none => record
  | some ⟨commitOid, pinnedRef, dirtyPaths, .worktreeCapture⟩ =>
    { record with
      captureMode := .dirtySnapshot
      snapshotOid := some commitOid.asStr
      snapshotRef := some pinnedRef
      dirtyFiles := dirtyPaths.map fun path => String.ofList path.slashed }
  | some ⟨_, pinnedRef, _, .headOnly⟩ =>
    { record with
      captureMode := .headOnly
      finalHeadRef := some pinnedRef }

theorem Destruction.record_destroyedAt (args : Destruction) (destroyedAt : Timestamp) :
    (args.record destroyedAt).destroyedAt = destroyedAt.text := by
  rw [record]
  split <;> rfl

def writeDestroyRecord (args : Destruction) (destroyedAt : Timestamp) : FileProg String := do
  attempt createDirAll
  writeJsonAtomic (recordName destroyedAt) (.record (args.record destroyedAt))
  writeJsonAtomic latestName (.pointer ⟨recordName destroyedAt, destroyedAt.text⟩)
  pure (recordName destroyedAt)

/-- Whether the pointer is to be moved after the removal. -/
def repoints (filename : String) (survivors : List String) : Option LatestPointer → Bool
  | some pointer => pointer.record = filename || pointer.record ∉ survivors
  | none => true

/-- Let the pointer name the newest record that is left. -/
def repointLatest (filename newest : String) (survivors : List String) : FileProg Unit := do
  if repoints filename survivors (← attempt readLatestPointer) then do
    let record ← attempt (readRecord newest)
    writeJsonAtomic latestName (.pointer ⟨newest, DestroyRecord.destroyedAt record⟩)
  else pure ()

def removeLatest : FileProg Unit := do
  if ← attempt (pathExists latestName) then attempt (removeFile latestName) else pure ()

/-- Move the pointer if a record is left, and else remove it. -/
def recomputeLatest (filename : String) (survivors : List String) : FileProg Unit :=
  match survivors.getLast? with
  | some newest => repointLatest filename newest survivors
  | none => do
    removeLatest
    ignoreError (attempt removeDir)

def removeRecord (filename : String) : FileProg Bool := do
  if ← attempt (pathExists filename) then do
    attempt (removeFile filename)
    let survivors ← attempt FileOp.listRecordFiles
    recomputeLatest filename survivors
    pure true
  else pure false

end Calls

/-! ### What a call leaves -/

section Leaves

/-- There are no others. -/
def Never (_ _ : Disk) : Prop := False

/-- All states that a program comes to are of a kind. -/
abbrev Through (I : Disk → Prop) {α : Type} (P : Disk → Prop) (p : FileProg α)
    (R : α → Disk → Prop) : Prop :=
  Triple FileOp.Exec Never (fun _ d' => I d') P p R I

variable {I P : Disk → Prop} {d₀ : Disk}

theorem stable_never (P : Disk → Prop) : Stable Never P := fun _ _ h => h.elim

theorem through_attempt {op : FileOp} {R : op.Ret → Disk → Prop} (hI : ∀ d, P d → I d)
    (hR : ∀ a d, R a d → I d) (h : ∀ d a d', P d → op.Takes d a d' → R a d') :
    Through I P (attempt op) R := by
  refine triple_attempt (stable_never _) (fun _ => stable_never _) (stable_never _) ?_
  rintro d (e | a) d' hd hexec
  · obtain ⟨-, -, rfl⟩ := hexec
    exact ⟨hI d' hd, hI d' hd⟩
  · have hR' := h d a d' hd hexec
    exact ⟨hR a d' hR', hR'⟩

/-- While a file is written under another name, all is as before; then it is there as a whole. -/
theorem through_writeJsonAtomic {name : String} {contents : Contents}
    (hI : ∀ d, Agree d₀ d → I d) (hI' : ∀ d, Agree (d₀.insert name contents) d → I d) :
    Through I (Agree d₀) (writeJsonAtomic name contents)
      fun _ => Agree (d₀.insert name contents) := by
  refine triple_bind (stable_never _) (R := fun _ => Agree d₀)
    (through_attempt hI (fun _ => hI) ?_) fun _ => ?_
  · rintro d _ _ hd rfl
    exact hd
  refine triple_bind (stable_never _) (R := fun _ => Agree d₀)
    (through_attempt hI (fun _ => hI) ?_) fun _ => ?_
  · rintro d _ _ hd rfl
    exact hd.insert_temp _
  refine triple_bind (stable_never _)
    (R := fun _ d => Agree d₀ d ∧ d.lookup (tempName name) = some contents)
    (through_attempt hI (fun _ d hd => hI d hd.1) ?_) fun _ => ?_
  · rintro d _ _ hd rfl
    exact ⟨hd.insert_temp _, by rw [FiniteMap.lookup_insert, if_pos rfl]⟩
  · refine through_attempt (fun d hd => hI d hd.1) (fun _ => hI') ?_
    rintro d _ _ ⟨hd, htemp⟩ ⟨contents', hlookup, rfl⟩
    obtain rfl := Option.some.inj (htemp.symm.trans hlookup)
    exact hd.erase_temp.insert _ _

variable {d d' : Disk} {args : Destruction} {t : Timestamp} {filename newest : String}
  {survivors : List String}

/-- The directory with the record. -/
def Disk.withRecord (d : Disk) (args : Destruction) (t : Timestamp) : Disk :=
  d.insert (recordName t) (.record (args.record t))

/-- The directory with the pointer to the record. -/
def Disk.withPointer (d : Disk) (name destroyedAt : String) : Disk :=
  d.insert latestName (.pointer ⟨name, destroyedAt⟩)

/-- What a call that writes a record leaves behind, wherever it is cut off. -/
def WriteLeaves (args : Destruction) (t : Timestamp) (d d' : Disk) : Prop :=
  Agree d d' ∨ Agree (d.withRecord args t) d' ∨
    Agree ((d.withRecord args t).withPointer (recordName t) t.text) d'

theorem through_writeDestroyRecord :
    Through (WriteLeaves args t d) (Agree d) (writeDestroyRecord args t)
      fun _ => Agree ((d.withRecord args t).withPointer (recordName t) t.text) := by
  have hfirst (d' : Disk) (h : Agree d d') : WriteLeaves args t d d' := .inl h
  have hsecond (d' : Disk) (h : Agree (d.withRecord args t) d') : WriteLeaves args t d d' :=
    .inr (.inl h)
  have hthird (d' : Disk)
      (h : Agree ((d.withRecord args t).withPointer (recordName t) t.text) d') :
      WriteLeaves args t d d' := .inr (.inr h)
  refine triple_bind (stable_never _) (R := fun _ => Agree d)
    (through_attempt hfirst (fun _ => hfirst) ?_) fun _ => ?_
  · rintro d' _ _ hd rfl
    exact hd
  refine triple_bind (stable_never _) (through_writeJsonAtomic hfirst hsecond) fun _ => ?_
  refine triple_bind (stable_never _) (through_writeJsonAtomic hsecond hthird) fun _ => ?_
  exact triple_pure (stable_never _) fun _ h => h

/-- What a call that removes a record leaves behind, wherever it is cut off. -/
def RemoveLeaves (filename : String) (d d' : Disk) : Prop :=
  Agree d d' ∨ Agree (d.without filename) d' ∨
    (d.without filename).dir.listRecordFiles = [] ∧
      Agree ((d.without filename).without latestName) d' ∨
    ∃ newest record, (d.without filename).dir.listRecordFiles.getLast? = some newest ∧
      (d.without filename).dir.readRecord newest = .ok record ∧
      Agree ((d.without filename).withPointer newest record.destroyedAt) d'

theorem removeLeaves_erased (h : Agree (d.without filename) d') : RemoveLeaves filename d d' :=
  .inr (.inl h)

theorem through_repointLatest
    (hnewest : (d.without filename).dir.listRecordFiles.getLast? = some newest) :
    Through (RemoveLeaves filename d) (Agree (d.without filename))
      (repointLatest filename newest survivors) fun _ => RemoveLeaves filename d := by
  have hjson : isJsonRecordName newest = true :=
    (Disk.mem_listRecordFiles.mp (List.mem_of_getLast? hnewest)).1
  refine triple_bind (stable_never _) (R := fun _ => Agree (d.without filename))
    (through_attempt (fun _ => removeLeaves_erased) (fun _ _ => removeLeaves_erased) ?_)
    fun pointer => ?_
  · rintro d' _ _ hd ⟨rfl, -⟩
    exact hd
  split_ifs
  · refine triple_bind (stable_never _) (R := fun record d' =>
      (d.without filename).dir.readRecord newest = .ok record ∧ Agree (d.without filename) d')
      (through_attempt (fun _ => removeLeaves_erased)
        (fun _ _ h => removeLeaves_erased h.2) ?_) fun record => ?_
    · rintro d' record _ hd ⟨rfl, hread⟩
      exact ⟨(hd.readRecord hjson).symm.trans hread, hd⟩
    · refine triple_of_fact fun hread => ?_
      have hmoved (d' : Disk)
          (h : Agree ((d.without filename).withPointer newest record.destroyedAt) d') :
          RemoveLeaves filename d d' := .inr (.inr (.inr ⟨newest, record, hnewest, hread, h⟩))
      exact (through_writeJsonAtomic (fun _ => removeLeaves_erased) hmoved).imp
        (fun _ => hmoved) fun _ h => h
  · exact triple_pure (stable_never _) fun _ => removeLeaves_erased

theorem through_removeLatest (hnone : (d.without filename).dir.listRecordFiles = []) :
    Through (RemoveLeaves filename d) (Agree (d.without filename)) removeLatest
      fun _ => RemoveLeaves filename d := by
  refine triple_bind (stable_never _) (R := fun _ => Agree (d.without filename))
    (through_attempt (fun _ => removeLeaves_erased) (fun _ _ => removeLeaves_erased) ?_)
    fun found => ?_
  · rintro d' _ _ hd ⟨rfl, -⟩
    exact hd
  split_ifs
  · refine through_attempt (fun _ => removeLeaves_erased) (fun _ _ h => h) ?_
    rintro d' _ _ hd ⟨-, rfl⟩
    exact .inr (.inr (.inl ⟨hnone, hd.without _⟩))
  · exact triple_pure (stable_never _) fun _ => removeLeaves_erased

theorem through_recomputeLatest :
    Through (RemoveLeaves filename d) (Agree (d.without filename))
      (recomputeLatest filename (d.without filename).dir.listRecordFiles)
      fun _ => RemoveLeaves filename d := by
  rw [recomputeLatest]
  split
  · exact through_repointLatest ‹_›
  · refine triple_bind (stable_never _)
      (through_removeLatest (List.getLast?_eq_none_iff.mp ‹_›)) fun _ => ?_
    refine triple_of_only (stable_never _) (K := (· = .removeDir)) ?_ (fun _ h => h)
      (only_ignoreError (only_attempt rfl))
    rintro op d₁ (e | a) d₂ rfl hd hexec
    · obtain ⟨-, -, rfl⟩ := hexec
      exact ⟨hd, hd⟩
    · obtain ⟨-, rfl⟩ := hexec
      exact ⟨hd, hd⟩

theorem through_removeRecord :
    Through (RemoveLeaves filename d) (Agree d) (removeRecord filename)
      fun _ => RemoveLeaves filename d := by
  refine triple_bind (stable_never _) (R := fun _ => Agree d)
    (through_attempt (fun _ => .inl) (fun _ _ => .inl) ?_) fun found => ?_
  · rintro d' _ _ hd ⟨rfl, -⟩
    exact hd
  split_ifs
  · refine triple_bind (stable_never _) (R := fun _ => Agree (d.without filename))
      (through_attempt (fun _ => .inl) (fun _ _ => removeLeaves_erased) ?_) fun _ => ?_
    · rintro d' _ _ hd ⟨-, rfl⟩
      exact hd.without _
    refine triple_bind (stable_never _) (R := fun survivors d' =>
      survivors = (d.without filename).dir.listRecordFiles ∧ Agree (d.without filename) d')
      (through_attempt (fun _ => removeLeaves_erased)
        (fun _ _ h => removeLeaves_erased h.2) ?_) fun survivors => ?_
    · rintro d' _ _ hd ⟨rfl, hnames⟩
      exact ⟨hnames.trans hd.listRecordFiles, hd⟩
    · refine triple_of_fact ?_
      rintro rfl
      refine triple_bind (stable_never _) through_recomputeLatest fun _ => ?_
      exact triple_pure (stable_never _) fun _ h => h
  · exact triple_pure (stable_never _) fun _ => .inl

end Leaves

end Maw.LatestRecord
