import Maw.Recovery.RecordFiles

/-!
# The pointer to the latest destroy record

A record and the pointer to it are two files that are written one after the other. A call that is
cut off between the two leaves the pointer at an older record, and reading the latest record finds
that one. Where that does not happen the newest record is found after any calls, cut off or not.

## Main definitions

* `FindsNewest` — reading finds the newest record.
* `Coherent`, `Pointed` — what holds after any calls, and the pointer names no older record.
* `History` — calls, one after the other, each of which may be cut off.

## Main results

* `read_latest_newest` — when the newest record is found throughout.
* `not_read_latest_newest` — a call that is cut off hides the newest record.
-/

open Interleaved

namespace Maw.LatestRecord

/-! ### What is read -/

section Reads

/-- A record of the directory that no other one is later than. -/
def IsNewest (dir : DestroyDir) (record : DestroyRecord) : Prop :=
  (∃ name ∈ dir.listRecordFiles, dir.readRecord name = .ok record) ∧
    ∀ name ∈ dir.listRecordFiles, ∀ other, dir.readRecord name = .ok other →
      other.destroyedAt ≤ record.destroyedAt

/-- Reading the latest record finds the newest one, if there is one. -/
def FindsNewest (dir : DestroyDir) : Prop :=
  match dir.readLatestRecord with
  | .ok none => dir.listRecordFiles = []
  | .ok (some record) => IsNewest dir record
  | .error _ => False

/-- The files are those of records that were written at some of these times, and the pointer names
a record. -/
structure Coherent (times : List String) (d : Disk) : Prop where
  records : ∀ name ∈ d.dir.listRecordFiles, ∃ t record, name = recordName t ∧ t.text ∈ times ∧
    d.lookup name = some (.record record) ∧ record.destroyedAt = t.text
  pointer : ∀ contents, d.lookup latestName = some contents →
    ∃ pointer, contents = .pointer pointer ∧ isJsonRecordName pointer.record = true

/-- If the pointer names a record that is there, it is the newest one. -/
def Pointed (d : Disk) : Prop :=
  ∀ pointer, d.lookup latestName = some (.pointer pointer) →
    pointer.record ∈ d.dir.listRecordFiles →
    ∀ name ∈ d.dir.listRecordFiles, name ≤ pointer.record

variable {times : List String} {d d' : Disk} {name : String} {record : DestroyRecord}
  {pointer : LatestPointer}

theorem Coherent.exists_read (h : Coherent times d) (hname : name ∈ d.dir.listRecordFiles) :
    ∃ t record, name = recordName t ∧ d.dir.readRecord name = .ok record ∧
      record.destroyedAt = t.text := by
  obtain ⟨t, record, hrecord, -, hlookup, htime⟩ := h.records name hname
  exact ⟨t, record, hrecord, Disk.readRecord_eq_ok.mpr hlookup, htime⟩

theorem Coherent.isNewest_iff (h : Coherent times d) (hname : name ∈ d.dir.listRecordFiles)
    (hread : d.dir.readRecord name = .ok record) :
    IsNewest d.dir record ↔ ∀ other ∈ d.dir.listRecordFiles, other ≤ name := by
  obtain ⟨t, record', rfl, hread', htime⟩ := h.exists_read hname
  obtain rfl := Except.ok.inj (hread.symm.trans hread')
  constructor
  · rintro ⟨-, hle⟩ other hother
    obtain ⟨t', other', rfl, hread'', htime'⟩ := h.exists_read hother
    have htimes := hle _ hother other' hread''
    rw [htime, htime'] at htimes
    exact not_lt.mp fun hlt => absurd htimes (not_le.mpr (recordName_lt_iff.mp hlt))
  · intro hle
    refine ⟨⟨_, hname, hread⟩, fun name hother other hread'' => ?_⟩
    obtain ⟨t', other', rfl, hrecord, htime'⟩ := h.exists_read hother
    obtain rfl := Except.ok.inj (hread''.symm.trans hrecord)
    rw [htime, htime']
    exact not_lt.mp fun hlt => absurd (hle _ hother) (not_le.mpr (recordName_lt hlt))

theorem readLatestRecord_of_read (hpointer : d.lookup latestName = some (.pointer pointer))
    (hread : d.dir.readRecord pointer.record = .ok record) :
    d.dir.readLatestRecord = .ok (some record) := by
  rw [DestroyDir.readLatestRecord, Disk.readLatestPointer_eq_ok.mpr hpointer]
  simp only [bind, Except.bind, Option.map_some, hread]
  rfl

theorem le_getLast (hlast : d.dir.listRecordFiles.getLast? = some name) :
    ∀ other ∈ d.dir.listRecordFiles, other ≤ name := by
  have hsorted : d.dir.listRecordFiles.Pairwise (· ≤ ·) := Finset.pairwise_sort _ _
  obtain ⟨front, hfront⟩ := List.getLast?_eq_some_iff.mp hlast
  rw [hfront] at hsorted ⊢
  intro other hother
  rcases List.mem_append.mp hother with hother | hother
  · exact (List.pairwise_append.mp hsorted).2.2 other hother name (List.mem_singleton_self _)
  · exact (List.mem_singleton.mp hother).le

theorem readLatestRecord_of_scan {o : Option LatestPointer}
    (hpointer : d.dir.readLatestPointer = .ok o)
    (hstale : ∀ pointer, o = some pointer →
      ∀ record, d.dir.readRecord pointer.record ≠ .ok record) :
    d.dir.readLatestRecord =
      match d.dir.listRecordFiles.getLast? with
      | none => .ok none
      | some filename => (d.dir.readRecord filename).map some := by
  have hscan : d.dir.readLatestRecord =
      match d.dir.listRecordFiles.getLast? with
      | none => pure none
      | some filename => do return some (← d.dir.readRecord filename) := by
    rw [DestroyDir.readLatestRecord, hpointer]
    cases o with
    | none => rfl
    | some pointer =>
      simp only [bind, Except.bind, Option.map_some]
      cases hread : d.dir.readRecord pointer.record with
      | error e => rfl
      | ok record => exact absurd hread (hstale pointer rfl record)
  rw [hscan]
  split
  · rfl
  · cases d.dir.readRecord _ <;> rfl

/-- The directory is scanned if the pointer names no record that is there. -/
theorem Coherent.readLatestRecord_of_scan (h : Coherent times d)
    (hstale : ∀ pointer, d.lookup latestName = some (.pointer pointer) →
      pointer.record ∉ d.dir.listRecordFiles) :
    d.dir.readLatestRecord =
      match d.dir.listRecordFiles.getLast? with
      | none => .ok none
      | some filename => (d.dir.readRecord filename).map some := by
  cases hlookup : d.lookup latestName with
  | none =>
    have hpointer : d.dir.readLatestPointer = .ok none := by
      rw [DestroyDir.readLatestPointer, Disk.dir, hlookup]
      rfl
    exact LatestRecord.readLatestRecord_of_scan hpointer fun _ h => by cases h
  | some contents =>
    obtain ⟨pointer, rfl, hjson⟩ := h.pointer contents hlookup
    refine LatestRecord.readLatestRecord_of_scan (Disk.readLatestPointer_eq_ok.mpr hlookup) ?_
    rintro _ ⟨⟩ record hread
    refine hstale pointer hlookup (Disk.mem_listRecordFiles.mpr ⟨hjson, ?_⟩)
    exact FiniteMap.mem_of_lookup (Disk.readRecord_eq_ok.mp hread)

theorem Coherent.findsNewest_iff (h : Coherent times d) : FindsNewest d.dir ↔ Pointed d := by
  by_cases hlisted : ∃ pointer, d.lookup latestName = some (.pointer pointer) ∧
      pointer.record ∈ d.dir.listRecordFiles
  · obtain ⟨pointer, hpointer, hmem⟩ := hlisted
    obtain ⟨t, record, -, hread, -⟩ := h.exists_read hmem
    rw [FindsNewest, readLatestRecord_of_read hpointer hread]
    refine (h.isNewest_iff hmem hread).trans ⟨fun hle other hother _ => ?_, fun hpt => ?_⟩
    · obtain rfl := Contents.pointer.inj (Option.some.inj (hpointer.symm.trans hother))
      exact hle
    · exact hpt pointer hpointer hmem
  · have hstale (pointer : LatestPointer)
        (hpointer : d.lookup latestName = some (.pointer pointer)) :
        pointer.record ∉ d.dir.listRecordFiles := fun hmem => hlisted ⟨pointer, hpointer, hmem⟩
    refine iff_of_true ?_ fun pointer hpointer hmem => absurd hmem (hstale pointer hpointer)
    rw [FindsNewest, h.readLatestRecord_of_scan hstale]
    cases hlast : d.dir.listRecordFiles.getLast? with
    | none => exact List.getLast?_eq_none_iff.mp hlast
    | some newest =>
      have hmem := List.mem_of_getLast? hlast
      obtain ⟨t, record, -, hread, -⟩ := h.exists_read hmem
      simp only [hread, Except.map]
      exact (h.isNewest_iff hmem hread).mpr (le_getLast hlast)

end Reads

/-! ### Calls, one after the other -/

section History

/-- A call to write a record or to remove one. -/
inductive Call
  | write (args : Destruction) (destroyedAt : Timestamp)
  | remove (filename : String)

/-- The time of the record that the call writes. -/
def Call.times : Call → List String
  | write _ destroyedAt => [destroyedAt.text]
  | remove _ => []

/-- A call may leave any files that it comes to: it may be cut off between two operations, or an
operation may fail. -/
def Call.Leaves : Call → Disk → Disk → Prop
  | write args destroyedAt, d, d' =>
    ∃ rest, Prog.Runs FileOp.Exec (writeDestroyRecord args destroyedAt).run d rest d'
  | remove filename, d, d' => ∃ rest, Prog.Runs FileOp.Exec (removeRecord filename).run d rest d'

structure Step where
  call : Call
  before : Disk
  after : Disk

/-- Calls from a directory on, with records later than the earlier ones. -/
def History (earlier : List String) (d : Disk) : List Step → Prop
  | [] => True
  | step :: rest => step.before = d ∧ (∀ t ∈ step.call.times, ∀ t' ∈ earlier, t' < t) ∧
      step.call.Leaves step.before step.after ∧
      History (step.call.times ++ earlier) step.after rest

/-- The call places its record and is cut off before it moves the pointer, which names another
record that is there. -/
def Step.Strands (step : Step) : Prop :=
  match step.call with
  | .write _ destroyedAt => recordName destroyedAt ∈ step.after ∧
      step.after.lookup latestName = step.before.lookup latestName ∧
      ∃ pointer, step.before.lookup latestName = some (.pointer pointer) ∧
        pointer.record ∈ step.before.dir.listRecordFiles
  | .remove _ => False

variable {times : List String} {d d' : Disk} {name filename : String} {args : Destruction}
  {t : Timestamp} {I P : Disk → Prop}

/-- What holds throughout a program holds wherever it is cut off. -/
theorem Through.of_runs {α : Type} {p : FileProg α} {R : α → Disk → Prop}
    {rest : Prog FileOp (fun op => Except FileOp op.Ret) (Except FileOp α)}
    (h : Through I P p R) (hrun : Prog.Runs FileOp.Exec p.run d rest d') (hP : P d) (hI : I d) :
    I d' := by
  have hamid : Prog.RunsAmid FileOp.Exec Never p.run d rest d' := hrun.amid
  exact hamid.invariant (fun _ _ h => h.elim) h hP hI

theorem writeLeaves_of_leaves (h : (Call.write args t).Leaves d d') : WriteLeaves args t d d' := by
  obtain ⟨rest, hrun⟩ := h
  exact through_writeDestroyRecord.of_runs hrun (.refl d) (.inl (.refl d))

theorem removeLeaves_of_leaves (h : (Call.remove filename).Leaves d d') :
    RemoveLeaves filename d d' := by
  obtain ⟨rest, hrun⟩ := h
  exact through_removeRecord.of_runs hrun (.refl d) (.inl (.refl d))

theorem latestName_ne_recordName : latestName ≠ recordName t := fun h => by
  have hjson := isJsonRecordName_recordName t
  rw [← h, isJsonRecordName_latestName] at hjson
  cases hjson

theorem mem_listRecordFiles_withRecord : name ∈ (d.withRecord args t).dir.listRecordFiles ↔
    name = recordName t ∨ name ∈ d.dir.listRecordFiles := by
  rw [Disk.mem_listRecordFiles, Disk.mem_listRecordFiles, Disk.withRecord, Finmap.mem_insert]
  constructor
  · rintro ⟨hjson, rfl | hmem⟩
    · exact .inl rfl
    · exact .inr ⟨hjson, hmem⟩
  · rintro (rfl | ⟨hjson, hmem⟩)
    · exact ⟨isJsonRecordName_recordName t, .inl rfl⟩
    · exact ⟨hjson, .inr hmem⟩

theorem mem_listRecordFiles_withPointer {record destroyedAt : String} :
    name ∈ (d.withPointer record destroyedAt).dir.listRecordFiles ↔
      name ∈ d.dir.listRecordFiles := by
  rw [Disk.mem_listRecordFiles, Disk.mem_listRecordFiles, Disk.withPointer, Finmap.mem_insert]
  refine and_congr_right fun hjson => or_iff_right ?_
  rintro rfl
  rw [isJsonRecordName_latestName] at hjson
  cases hjson

theorem mem_listRecordFiles_without : name ∈ (d.without filename).dir.listRecordFiles ↔
    name ≠ filename ∧ name ∈ d.dir.listRecordFiles := by
  rw [Disk.mem_listRecordFiles, Disk.mem_listRecordFiles, Disk.without, Finmap.mem_erase,
    and_left_comm]

theorem lookup_latestName_withRecord :
    (d.withRecord args t).lookup latestName = d.lookup latestName := by
  rw [Disk.withRecord, FiniteMap.lookup_insert, if_neg latestName_ne_recordName]

theorem Coherent.of_agree (h : Coherent times d) (hagree : Agree d d') : Coherent times d' where
  records name hname := by
    rw [hagree.mem_listRecordFiles] at hname
    rw [hagree name (.inl (Disk.mem_listRecordFiles.mp hname).1)]
    exact h.records name hname
  pointer contents hlookup := by
    rw [hagree latestName (.inr rfl)] at hlookup
    exact h.pointer contents hlookup

theorem Pointed.of_agree (h : Pointed d) (hagree : Agree d d') : Pointed d' := by
  intro pointer hlookup hmem name hname
  rw [hagree latestName (.inr rfl)] at hlookup
  rw [hagree.mem_listRecordFiles] at hmem hname
  exact h pointer hlookup hmem name hname

theorem Coherent.withRecord (h : Coherent times d) :
    Coherent (t.text :: times) (d.withRecord args t) where
  records name hname := by
    rw [Disk.withRecord, FiniteMap.lookup_insert]
    split_ifs with heq
    · exact ⟨t, _, heq, List.mem_cons_self, rfl, args.record_destroyedAt t⟩
    · obtain ⟨t', record, hrecord, htimes, hrest⟩ :=
        h.records name ((mem_listRecordFiles_withRecord.mp hname).resolve_left heq)
      exact ⟨t', record, hrecord, List.mem_cons_of_mem _ htimes, hrest⟩
  pointer contents hlookup := by
    rw [lookup_latestName_withRecord] at hlookup
    exact h.pointer contents hlookup

theorem Coherent.withPointer {record destroyedAt : String} (h : Coherent times d)
    (hjson : isJsonRecordName record = true) :
    Coherent times (d.withPointer record destroyedAt) where
  records name hname := by
    rw [Disk.withPointer, FiniteMap.lookup_insert, if_neg]
    · exact h.records name (mem_listRecordFiles_withPointer.mp hname)
    · rintro rfl
      have hlatest := (Disk.mem_listRecordFiles.mp hname).1
      rw [isJsonRecordName_latestName] at hlatest
      cases hlatest
  pointer contents hlookup := by
    rw [Disk.withPointer, FiniteMap.lookup_insert, if_pos rfl] at hlookup
    exact ⟨_, (Option.some.inj hlookup).symm, hjson⟩

theorem lookup_of_lookup_without {contents : Contents}
    (h : (d.without filename).lookup name = some contents) : d.lookup name = some contents := by
  rw [Disk.without, FiniteMap.lookup_erase] at h
  split_ifs at h
  exact h

theorem Coherent.without (h : Coherent times d) : Coherent times (d.without filename) where
  records name hname := by
    obtain ⟨hne, hmem⟩ := mem_listRecordFiles_without.mp hname
    rw [Disk.without, FiniteMap.lookup_erase, if_neg hne]
    exact h.records name hmem
  pointer contents hlookup := h.pointer contents (lookup_of_lookup_without hlookup)

theorem Pointed.without (h : Pointed d) : Pointed (d.without filename) := by
  intro pointer hlookup hmem name hname
  rw [mem_listRecordFiles_without] at hmem hname
  exact h pointer (lookup_of_lookup_without hlookup) hmem.2 name hname.2

/-- The pointer to the last record. -/
theorem pointed_withPointer {record destroyedAt : String}
    (h : ∀ name ∈ d.dir.listRecordFiles, name ≤ record) :
    Pointed (d.withPointer record destroyedAt) := by
  intro pointer hlookup hmem name hname
  rw [Disk.withPointer, FiniteMap.lookup_insert, if_pos rfl] at hlookup
  cases hlookup
  exact h name (mem_listRecordFiles_withPointer.mp hname)

theorem Coherent.mono {times' : List String} (h : Coherent times d)
    (hsub : ∀ t ∈ times, t ∈ times') : Coherent times' d where
  records name hname := by
    obtain ⟨t, record, hrecord, htimes, hrest⟩ := h.records name hname
    exact ⟨t, record, hrecord, hsub _ htimes, hrest⟩
  pointer := h.pointer

/-- The name of a later record comes after the names of all others. -/
theorem Coherent.lt_recordName (h : Coherent times d) (hfresh : ∀ t' ∈ times, t' < t.text)
    (hname : name ∈ d.dir.listRecordFiles) : name < recordName t := by
  obtain ⟨t', record, rfl, htimes, -⟩ := h.records name hname
  exact recordName_lt (hfresh _ htimes)

theorem Coherent.recordName_not_mem (h : Coherent times d)
    (hfresh : ∀ t' ∈ times, t' < t.text) : recordName t ∉ d.dir.listRecordFiles :=
  fun hmem => lt_irrefl _ (h.lt_recordName hfresh hmem)

theorem Coherent.of_leaves {call : Call} (h : Coherent times d) (hleaves : call.Leaves d d') :
    Coherent (call.times ++ times) d' := by
  cases call with
  | write args t =>
    rcases writeLeaves_of_leaves hleaves with hagree | hagree | hagree
    · exact (h.of_agree hagree).mono fun t => List.mem_cons_of_mem _
    · exact h.withRecord.of_agree hagree
    · exact (h.withRecord.withPointer (isJsonRecordName_recordName t)).of_agree hagree
  | remove filename =>
    rcases removeLeaves_of_leaves hleaves with hagree | hagree | ⟨-, hagree⟩ |
      ⟨newest, record, hnewest, -, hagree⟩
    · exact h.of_agree hagree
    · exact h.without.of_agree hagree
    · exact h.without.without.of_agree hagree
    · have hjson := (Disk.mem_listRecordFiles.mp (List.mem_of_getLast? hnewest)).1
      exact (h.without.withPointer hjson).of_agree hagree

/-- A removal keeps the pointer to the newest record, wherever it is cut off. -/
theorem Pointed.of_remove (h : Pointed d) (hleaves : (Call.remove filename).Leaves d d') :
    Pointed d' := by
  rcases removeLeaves_of_leaves hleaves with hagree | hagree | ⟨-, hagree⟩ |
    ⟨newest, record, hnewest, -, hagree⟩
  · exact h.of_agree hagree
  · exact h.without.of_agree hagree
  · exact h.without.without.of_agree hagree
  · exact (pointed_withPointer (le_getLast hnewest)).of_agree hagree

/-- A pointer that names no other record may be left where it is. -/
theorem pointed_withRecord_iff (h : Coherent times d) (hfresh : ∀ t' ∈ times, t' < t.text) :
    Pointed (d.withRecord args t) ↔ ¬ ∃ pointer, d.lookup latestName = some (.pointer pointer) ∧
      pointer.record ∈ d.dir.listRecordFiles := by
  constructor
  · rintro hpt ⟨pointer, hpointer, hmem⟩
    have hle := hpt pointer (by rw [lookup_latestName_withRecord, hpointer])
      (mem_listRecordFiles_withRecord.mpr (.inr hmem)) (recordName t)
      (mem_listRecordFiles_withRecord.mpr (.inl rfl))
    exact absurd hle (not_le.mpr (h.lt_recordName hfresh hmem))
  · intro hstale pointer hpointer hmem name hname
    rw [lookup_latestName_withRecord] at hpointer
    have hnew : pointer.record = recordName t :=
      (mem_listRecordFiles_withRecord.mp hmem).resolve_right fun hold =>
        hstale ⟨pointer, hpointer, hold⟩
    rw [hnew]
    rcases mem_listRecordFiles_withRecord.mp hname with rfl | hold
    · exact le_refl _
    · exact (h.lt_recordName hfresh hold).le

theorem not_strands_iff_pointed (h : Coherent times d) (hpt : Pointed d)
    (hfresh : ∀ t' ∈ times, t' < t.text) (hleaves : (Call.write args t).Leaves d d') :
    ¬ (Step.mk (.write args t) d d').Strands ↔ Pointed d' := by
  have hnot := h.recordName_not_mem hfresh
  rcases writeLeaves_of_leaves hleaves with hagree | hagree | hagree
  · refine iff_of_true ?_ (hpt.of_agree hagree)
    rintro ⟨hplaced, -⟩
    exact hnot (hagree.mem_listRecordFiles.mp
      (Disk.mem_listRecordFiles.mpr ⟨isJsonRecordName_recordName t, hplaced⟩))
  · have hplaced : recordName t ∈ d'.dir.listRecordFiles :=
      hagree.mem_listRecordFiles.mpr (mem_listRecordFiles_withRecord.mpr (.inl rfl))
    have hlatest : d'.lookup latestName = d.lookup latestName :=
      (hagree latestName (.inr rfl)).trans lookup_latestName_withRecord
    have hiff : Pointed d' ↔ Pointed (d.withRecord args t) :=
      ⟨fun hpt' => hpt'.of_agree hagree.symm, fun hpt' => hpt'.of_agree hagree⟩
    rw [hiff, pointed_withRecord_iff h hfresh]
    refine not_congr ⟨fun hstrands => hstrands.2.2, fun hold => ⟨?_, hlatest, hold⟩⟩
    exact (Disk.mem_listRecordFiles.mp hplaced).2
  · have hle (name : String) (hname : name ∈ (d.withRecord args t).dir.listRecordFiles) :
        name ≤ recordName t := by
      rcases mem_listRecordFiles_withRecord.mp hname with rfl | hold
      · exact le_refl _
      · exact (h.lt_recordName hfresh hold).le
    refine iff_of_true ?_ ((pointed_withPointer hle).of_agree hagree)
    rintro ⟨-, hlatest, pointer, hpointer, hmem⟩
    rw [hpointer, hagree latestName (.inr rfl), Disk.withPointer, FiniteMap.lookup_insert,
      if_pos rfl] at hlatest
    cases hlatest
    exact hnot hmem

/-- One call keeps the pointer to the newest record exactly if it strands no record. -/
theorem Step.not_strands_iff {step : Step} (h : Coherent times step.before)
    (hpt : Pointed step.before) (hfresh : ∀ t ∈ step.call.times, ∀ t' ∈ times, t' < t)
    (hleaves : step.call.Leaves step.before step.after) : ¬ step.Strands ↔ Pointed step.after := by
  obtain ⟨call, d, d'⟩ := step
  cases call with
  | write args t =>
    exact not_strands_iff_pointed h hpt (hfresh t.text (List.mem_singleton_self _)) hleaves
  | remove filename => exact iff_of_true (fun hstrands => hstrands) (hpt.of_remove hleaves)

theorem history_iff {steps : List Step} (h : Coherent times d) (hpt : Pointed d)
    (hsteps : History times d steps) : (∀ step ∈ steps, ¬ step.Strands) ↔
      ∀ step ∈ steps, FindsNewest step.after.dir := by
  induction steps generalizing times d with
  | nil =>
    constructor
    · exact fun _ _ h => absurd h List.not_mem_nil
    · exact fun _ _ h => absurd h List.not_mem_nil
  | cons step rest ih =>
    obtain ⟨rfl, hfresh, hleaves, hrest⟩ := hsteps
    have hafter := h.of_leaves hleaves
    have hstep : ¬ step.Strands ↔ FindsNewest step.after.dir :=
      (step.not_strands_iff h hpt hfresh hleaves).trans hafter.findsNewest_iff.symm
    rw [List.forall_mem_cons, List.forall_mem_cons, hstep]
    refine and_congr_right fun hfinds => ?_
    exact ih hafter (hafter.findsNewest_iff.mp hfinds) hrest

theorem coherent_empty : Coherent [] ∅ where
  records name hname := absurd (Disk.mem_listRecordFiles.mp hname).2 Finmap.notMem_empty
  pointer contents hlookup := by
    rw [Finmap.lookup_empty] at hlookup
    cases hlookup

theorem pointed_empty : Pointed ∅ := fun pointer hlookup => by
  rw [Finmap.lookup_empty] at hlookup
  cases hlookup

/-- From the empty directory on, the newest record is found throughout exactly if no call is cut
off between its record and the pointer while the pointer names another record that is there. -/
theorem read_latest_newest (steps : List Step) (hsteps : History [] ∅ steps) :
    (∀ step ∈ steps, ¬ step.Strands) ↔ ∀ step ∈ steps, FindsNewest step.after.dir :=
  history_iff coherent_empty pointed_empty hsteps

/-! ### A call that is cut off -/

theorem returns_writeJsonAtomic (d : Disk) (name : String) (contents : Contents) :
    ∃ d', Returns FileOp.Exec (writeJsonAtomic name contents) d () d' ∧
      Agree (d.insert name contents) d' := by
  let torn : Disk := d.insert (tempName name) .torn
  let whole : Disk := torn.insert (tempName name) contents
  have hlookup : whole.lookup (tempName name) = some contents := by
    rw [FiniteMap.lookup_insert, if_pos rfl]
  have htemp : Agree d whole := (Agree.refl d).insert_temp _ |>.insert_temp _
  refine ⟨(whole.erase (tempName name)).insert name contents, ?_, htemp.erase_temp.insert _ _⟩
  have hcreate : FileOp.Exec .createDirAll d (.ok ()) d := rfl
  have htorn : FileOp.Exec (.create (tempName name)) d (.ok ()) torn := rfl
  have hwhole : FileOp.Exec (.write (tempName name) contents) torn (.ok ()) whole := rfl
  have hrename : FileOp.Exec (.rename (tempName name) name) whole (.ok ())
      ((whole.erase (tempName name)).insert name contents) := ⟨contents, hlookup, rfl⟩
  exact attempt_bind_runs hcreate <| attempt_bind_runs htorn <| attempt_bind_runs hwhole <|
    returns_attempt.mpr hrename

/-- A call may be cut off after its record. -/
theorem exists_leaves_record (args : Destruction) (t : Timestamp) (d : Disk) :
    ∃ d', (Call.write args t).Leaves d d' ∧ Agree (d.withRecord args t) d' := by
  obtain ⟨d', hplaced, hagree⟩ :=
    returns_writeJsonAtomic d (recordName t) (.record (args.record t))
  have hcreate : FileOp.Exec .createDirAll d (.ok ()) d := rfl
  exact ⟨d', ⟨_, attempt_bind_runs hcreate (hplaced.bind_runs (.refl _ _))⟩, hagree⟩

/-- A call may go through. -/
theorem exists_leaves_pointer (args : Destruction) (t : Timestamp) (d : Disk) :
    ∃ d', (Call.write args t).Leaves d d' ∧
      Agree ((d.withRecord args t).withPointer (recordName t) t.text) d' := by
  obtain ⟨d₁, hplaced, hagree⟩ :=
    returns_writeJsonAtomic d (recordName t) (.record (args.record t))
  obtain ⟨d', hmoved, hagree'⟩ :=
    returns_writeJsonAtomic d₁ latestName (.pointer ⟨recordName t, t.text⟩)
  have hcreate : FileOp.Exec .createDirAll d (.ok ()) d := rfl
  refine ⟨d', ⟨_, attempt_bind_runs hcreate (hplaced.bind_runs (hmoved.bind_runs (.refl _ _)))⟩, ?_⟩
  exact Agree.trans (hagree.insert _ _) hagree'

def sampleTime : Timestamp := ⟨"2026-03-07T00:05:47.000000000Z", by decide⟩

def sampleLater : Timestamp := ⟨"2026-03-07T00:05:48.000000000Z", by decide⟩

def sampleDestruction : Destruction where
  workspaceName := "agent"
  baseEpoch := ⟨1⟩
  finalHead := ⟨2⟩
  capture := none
  destroyReason := .destroy

/-- The second of two calls is cut off after its record, and the first record is read. -/
theorem not_read_latest_newest : ∃ d₁ d₂,
    History [] ∅ [⟨.write sampleDestruction sampleTime, ∅, d₁⟩,
      ⟨.write sampleDestruction sampleLater, d₁, d₂⟩] ∧
    d₂.dir.readRecord (recordName sampleLater) = .ok (sampleDestruction.record sampleLater) ∧
    d₂.dir.readLatestRecord = .ok (some (sampleDestruction.record sampleTime)) ∧
    ¬ FindsNewest d₂.dir := by
  obtain ⟨d₁, hfirst, hagree₁⟩ := exists_leaves_pointer sampleDestruction sampleTime ∅
  obtain ⟨d₂, hsecond, hagree₂⟩ := exists_leaves_record sampleDestruction sampleLater d₁
  have hlt : sampleTime.text < sampleLater.text := by decide +kernel
  have hne : recordName sampleTime ≠ recordName sampleLater := (recordName_lt hlt).ne
  have hjson (t : Timestamp) : Visible (recordName t) := .inl (isJsonRecordName_recordName t)
  have hnewer : d₂.lookup (recordName sampleLater) =
      some (.record (sampleDestruction.record sampleLater)) := by
    rw [hagree₂ _ (hjson _), Disk.withRecord, FiniteMap.lookup_insert, if_pos rfl]
  have holder : d₂.lookup (recordName sampleTime) =
      some (.record (sampleDestruction.record sampleTime)) := by
    rw [hagree₂ _ (hjson _), Disk.withRecord, FiniteMap.lookup_insert, if_neg hne,
      hagree₁ _ (hjson _), Disk.withPointer, FiniteMap.lookup_insert,
      if_neg latestName_ne_recordName.symm, Disk.withRecord, FiniteMap.lookup_insert, if_pos rfl]
  have hpointer : d₂.lookup latestName =
      some (.pointer ⟨recordName sampleTime, sampleTime.text⟩) := by
    rw [hagree₂ _ (.inr rfl), lookup_latestName_withRecord, hagree₁ _ (.inr rfl),
      Disk.withPointer, FiniteMap.lookup_insert, if_pos rfl]
  have hread := Disk.readRecord_eq_ok.mpr hnewer
  have hlatest := readLatestRecord_of_read hpointer (Disk.readRecord_eq_ok.mpr holder)
  refine ⟨d₁, d₂, ?_, hread, hlatest, ?_⟩
  · refine ⟨rfl, fun _ _ _ h => absurd h List.not_mem_nil, hfirst, rfl, ?_, hsecond, trivial⟩
    rintro t ht t' ht'
    obtain rfl := List.mem_singleton.mp ht
    obtain rfl := List.mem_singleton.mp ht'
    exact hlt
  · rw [FindsNewest, hlatest]
    rintro ⟨-, hle⟩
    have hmem : recordName sampleLater ∈ d₂.dir.listRecordFiles :=
      Disk.mem_listRecordFiles.mpr
        ⟨isJsonRecordName_recordName _, FiniteMap.mem_of_lookup hnewer⟩
    have htimes := hle _ hmem _ hread
    rw [Destruction.record_destroyedAt, Destruction.record_destroyedAt] at htimes
    exact absurd htimes (not_le.mpr hlt)

/-- After one call that goes through, its record is found. -/
theorem read_latest_newest_sample : ∃ d₁,
    History [] ∅ [⟨.write sampleDestruction sampleTime, ∅, d₁⟩] ∧
    ((∀ step ∈ [Step.mk (.write sampleDestruction sampleTime) ∅ d₁], ¬ step.Strands) ↔
      ∀ step ∈ [Step.mk (.write sampleDestruction sampleTime) ∅ d₁],
        FindsNewest step.after.dir) := by
  obtain ⟨d₁, hleaves, -⟩ := exists_leaves_pointer sampleDestruction sampleTime ∅
  have hsteps : History [] ∅ [⟨.write sampleDestruction sampleTime, ∅, d₁⟩] :=
    ⟨rfl, fun _ _ _ h => absurd h List.not_mem_nil, hleaves, trivial⟩
  exact ⟨d₁, hsteps, read_latest_newest _ hsteps⟩

end History

end Maw.LatestRecord
