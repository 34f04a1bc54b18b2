import Maw.Library.TwoWay
import Maw.Oplog.Types

/-!
# File identities and paths

Every tracked file has an identity, and the map from paths to identities is kept in both
directions. A new file and a copy get fresh identities, a renamed file keeps its own. The map is
saved as a list of records in the order of the paths and loaded back.

## Main definitions

* `FileIdMap` — the map, with `trackNew`, `trackRename`, `trackCopy`, `trackDelete`.
* `FileIdMap.save`, `FileIdMap.load` — the map as a file.
* `FileIdMap.Tracks` — the maps that sequences of operations lead to.

## Main results

* `fileIdMap_bijective` — the map stays a bijection, and is read back as it was saved.
-/

open TwoWay

namespace Maw

/-- Paths as they are compared, with the text of those that are Unicode. -/
class PathText (π : Type) where
  toText : π → Option String
  ofText : String → π
  ofText_toText : ∀ p s, toText p = some s → ofText s = p

instance : PathText String where
  toText := some
  ofText := id
  ofText_toText _ _ h := (Option.some.inj h).symm

inductive FileIdMapError (π : Type)
  | pathAlreadyTracked (path : π)
  | pathNotTracked (path : π)
  | duplicatePath (path : π)
  | duplicateFileId (fileId : FileId)
  | io
  | json
  deriving DecidableEq

/-- The identity of each path and the path of each identity. -/
@[ext]
structure FileIdMap (π : Type) where
  pathToId : FiniteMap π FileId
  idToPath : FiniteMap FileId π

structure FileIdRecord (π : Type) where
  path : π
  fileId : FileId
  deriving DecidableEq

namespace FileIdMap

variable {π : Type} [LinearOrder π] (map : FileIdMap π)

def new : FileIdMap π := ⟨∅, ∅⟩

/-! ### Operations -/

/-- What an operation returns, and the map that it leaves. -/
abbrev Outcome (π : Type) := Except (FileIdMapError π) FileId × FileIdMap π

def containsPath (path : π) : Bool := (map.pathToId.lookup path).isSome

def containsId (id : FileId) : Bool := (map.idToPath.lookup id).isSome

/-- Track a new file under a random identity. -/
def trackNew (path : π) (random : FileId) : Outcome π :=
  if map.containsPath path then (.error (.pathAlreadyTracked path), map)
  else
    (.ok random, { pathToId := map.pathToId.insert path random
                   idToPath := map.idToPath.insert random path })

def trackRename (oldPath newPath : π) : Outcome π :=
  match map.pathToId.lookup oldPath with
  | none => (.error (.pathNotTracked oldPath), map)
  | some id =>
    let removed := map.pathToId.erase oldPath
    if (removed.lookup newPath).any (· ≠ id) then
      -- The old mapping is restored.
      (.error (.pathAlreadyTracked newPath), { map with pathToId := removed.insert oldPath id })
    else
      (.ok id, { pathToId := removed.insert newPath id
                 idToPath := map.idToPath.insert id newPath })

def trackCopy (srcPath dstPath : π) (random : FileId) : Outcome π :=
  if !map.containsPath srcPath then (.error (.pathNotTracked srcPath), map)
  else if map.containsPath dstPath then (.error (.pathAlreadyTracked dstPath), map)
  else
    (.ok random, { pathToId := map.pathToId.insert dstPath random
                   idToPath := map.idToPath.insert random dstPath })

def trackDelete (path : π) : Outcome π :=
  match map.pathToId.lookup path with
  | none => (.error (.pathNotTracked path), map)
  | some id => (.ok id, { pathToId := map.pathToId.erase path
                          idToPath := map.idToPath.erase id })

/-! ### The file -/

/-- The entries in the order of their paths. -/
def records : List (FileIdRecord π) :=
  (KeyedSort.inOrderOf id Function.injective_id map.pathToId.keys).filterMap fun path =>
    (map.pathToId.lookup path).map fun id => ⟨path, id⟩

/-- Build the map from records, of which no two may have a path or an identity in common. -/
def fromRecordsInto (map : FileIdMap π) :
    List (FileIdRecord π) → Except (FileIdMapError π) (FileIdMap π)
  | [] => .ok map
  | record :: rest =>
    if map.containsPath record.path then .error (.duplicatePath record.path)
    else if map.containsId record.fileId then .error (.duplicateFileId record.fileId)
    else fromRecordsInto { idToPath := map.idToPath.insert record.fileId record.path
                           pathToId := map.pathToId.insert record.path record.fileId } rest

def fromRecords (records : List (FileIdRecord π)) :
    Except (FileIdMapError π) (FileIdMap π) :=
  fromRecordsInto new records

section File

variable [PathText π]

/-- A record as JSON, unless its path is not Unicode. -/
def recordToJson (record : FileIdRecord π) : Option JsonValue :=
  (PathText.toText record.path).map fun text =>
    .object [("path", .string text), ("file_id", JsonCodec.toJson record.fileId)]

def recordOfJson (value : JsonValue) : Option (FileIdRecord π) :=
  match value with
  | .object fields => do
    let path ← (⟨fields⟩ : JsonObject).field (α := String) "path"
    let fileId ← (⟨fields⟩ : JsonObject).field "file_id"
    return ⟨PathText.ofText path, fileId⟩
  | _ => none

/-- The content of the file that is written. -/
def save : Except (FileIdMapError π) JsonValue :=
  match map.records.mapM recordToJson with
  | some items => .ok (.array items)
  | none => .error .json

/-- The map in a file; where there is none, the empty map. -/
def load (content : Option JsonValue) : Except (FileIdMapError π) (FileIdMap π) :=
  match content with
  | none => .ok new
  | some (.array items) =>
    match items.mapM recordOfJson with
    | some records => fromRecords records
    | none => .error .json
  | some _ => .error .json

end File

end FileIdMap

/-! ### Records -/

namespace FileIdMap

variable {π : Type} [LinearOrder π] {map map' : FileIdMap π}

theorem mem_records {record : FileIdRecord π} :
    record ∈ map.records ↔ map.pathToId.lookup record.path = some record.fileId := by
  rw [records, List.mem_filterMap]
  constructor
  · rintro ⟨path, -, hrecord⟩
    obtain ⟨id, hid, rfl⟩ := Option.map_eq_some_iff.mp hrecord
    exact hid
  · intro h
    refine ⟨record.path, ?_, by rw [h]; rfl⟩
    rw [KeyedSort.mem_inOrderOf, Finmap.mem_keys, ← Finmap.lookup_isSome, h, Option.isSome_some]

theorem map_path_records : map.records.map FileIdRecord.path =
    KeyedSort.inOrderOf id Function.injective_id map.pathToId.keys := by
  have hall : ∀ path ∈ KeyedSort.inOrderOf id Function.injective_id map.pathToId.keys,
      path ∈ map.pathToId := by
    intro path hpath
    rwa [KeyedSort.mem_inOrderOf, Finmap.mem_keys] at hpath
  rw [records]
  generalize KeyedSort.inOrderOf id Function.injective_id map.pathToId.keys = paths at hall
  induction paths with
  | nil => rfl
  | cons path paths ih =>
    obtain ⟨id, hid⟩ := Finmap.mem_iff.mp (hall path List.mem_cons_self)
    rw [List.filterMap_cons_some (b := ⟨path, id⟩) (by rw [hid]; rfl), List.map_cons,
      ih fun p hp => hall p (List.mem_cons_of_mem _ hp)]

/-- The paths of the records are different. -/
theorem nodup_path_records : (map.records.map FileIdRecord.path).Nodup := by
  rw [map_path_records]
  exact KeyedSort.nodup_inOrderOf

/-- The identities of the records of a bijection are different. -/
theorem nodup_fileId_records (h : Inverse map.pathToId map.idToPath) :
    (map.records.map FileIdRecord.fileId).Nodup := by
  have hrecords : map.records.Nodup := nodup_path_records.of_map _
  refine hrecords.map_on fun a ha b hb heq => ?_
  have hpath := h.injective (mem_records.mp ha) (heq ▸ mem_records.mp hb)
  obtain ⟨pathA, idA⟩ := a
  obtain ⟨pathB, idB⟩ := b
  obtain rfl : pathA = pathB := hpath
  obtain rfl : idA = idB := heq
  rfl

/-- The records can be added to a map: they have no path and no identity in common with it or with
each other. -/
def Addable (map : FileIdMap π) (records : List (FileIdRecord π)) : Prop :=
  (records.map FileIdRecord.path).Nodup ∧ (records.map FileIdRecord.fileId).Nodup ∧
    ∀ record ∈ records, map.pathToId.lookup record.path = none ∧
      map.idToPath.lookup record.fileId = none

/-- A map with one more pair. -/
def add (map : FileIdMap π) (record : FileIdRecord π) : FileIdMap π where
  idToPath := map.idToPath.insert record.fileId record.path
  pathToId := map.pathToId.insert record.path record.fileId

theorem addable_cons {record : FileIdRecord π} {records : List (FileIdRecord π)} :
    Addable map (record :: records) ↔ (map.pathToId.lookup record.path = none ∧
      map.idToPath.lookup record.fileId = none) ∧ Addable (map.add record) records := by
  have hpath (r : FileIdRecord π) : (map.add record).pathToId.lookup r.path = none ↔
      r.path ≠ record.path ∧ map.pathToId.lookup r.path = none := by
    rw [add, FiniteMap.lookup_insert]
    split_ifs with h <;> simp [h]
  have hid (r : FileIdRecord π) : (map.add record).idToPath.lookup r.fileId = none ↔
      r.fileId ≠ record.fileId ∧ map.idToPath.lookup r.fileId = none := by
    rw [add, FiniteMap.lookup_insert]
    split_ifs with h <;> simp [h]
  simp only [Addable, List.map_cons, List.nodup_cons, List.mem_map, List.forall_mem_cons, hpath,
    hid]
  constructor
  · rintro ⟨⟨hnew, hpaths⟩, ⟨hnew', hids⟩, hrecord, hrest⟩
    exact ⟨hrecord, hpaths, hids, fun r hr => ⟨⟨fun h => hnew ⟨r, hr, h⟩, (hrest r hr).1⟩,
      fun h => hnew' ⟨r, hr, h⟩, (hrest r hr).2⟩⟩
  · rintro ⟨hrecord, hpaths, hids, hrest⟩
    refine ⟨⟨?_, hpaths⟩, ⟨?_, hids⟩, hrecord, fun r hr => ⟨(hrest r hr).1.2, (hrest r hr).2.2⟩⟩
    · rintro ⟨r, hr, h⟩
      exact (hrest r hr).1.1 h
    · rintro ⟨r, hr, h⟩
      exact (hrest r hr).2.1 h

theorem fromRecordsInto_cons {record : FileIdRecord π} {records : List (FileIdRecord π)}
    (hpath : map.pathToId.lookup record.path = none)
    (hid : map.idToPath.lookup record.fileId = none) :
    fromRecordsInto map (record :: records) = fromRecordsInto (map.add record) records := by
  rw [fromRecordsInto, containsPath, containsId, hpath, hid]
  rfl

/-- Exactly the lists that can be added are accepted. -/
theorem fromRecordsInto_ok_iff {records : List (FileIdRecord π)} :
    (∃ map', fromRecordsInto map records = .ok map') ↔ Addable map records := by
  induction records generalizing map with
  | nil => exact ⟨fun _ => ⟨List.nodup_nil, List.nodup_nil, nofun⟩, fun _ => ⟨map, rfl⟩⟩
  | cons record records ih =>
    rw [addable_cons]
    by_cases hpath : map.pathToId.lookup record.path = none
    · by_cases hid : map.idToPath.lookup record.fileId = none
      · rw [fromRecordsInto_cons hpath hid, ih]
        simp [hpath, hid]
      · obtain ⟨path, hsome⟩ := Option.ne_none_iff_exists'.mp hid
        simp [fromRecordsInto, containsPath, containsId, hpath, hsome]
    · obtain ⟨id, hsome⟩ := Option.ne_none_iff_exists'.mp hpath
      simp [fromRecordsInto, containsPath, hsome]

/-- What a map has that was built from records. -/
theorem fromRecordsInto_spec {records : List (FileIdRecord π)}
    (h : fromRecordsInto map records = .ok map') (hmap : Inverse map.pathToId map.idToPath) :
    Inverse map'.pathToId map'.idToPath ∧ ∀ path id, map'.pathToId.lookup path = some id ↔
      (⟨path, id⟩ : FileIdRecord π) ∈ records ∨ map.pathToId.lookup path = some id := by
  induction records generalizing map with
  | nil =>
    obtain rfl := Except.ok.inj h
    exact ⟨hmap, fun path id => by simp⟩
  | cons record records ih =>
    obtain ⟨⟨hpath, hid⟩, -⟩ := addable_cons.mp (fromRecordsInto_ok_iff.mp ⟨map', h⟩)
    rw [fromRecordsInto_cons hpath hid] at h
    obtain ⟨hinverse, hlookup⟩ := ih h (hmap.insert hpath hid)
    refine ⟨hinverse, fun path id => ?_⟩
    rw [hlookup, add, FiniteMap.lookup_insert, List.mem_cons]
    have hrecord : (⟨path, id⟩ : FileIdRecord π) = record ↔
        path = record.path ∧ record.fileId = id := by
      obtain ⟨path', id'⟩ := record
      simp [eq_comm]
    rw [hrecord]
    split_ifs with heq
    · subst heq
      simp [hpath, or_comm]
    · simp [heq]

/-- Two bijections with the same identity for each path are equal. -/
theorem eq_of_pathToId (h : Inverse map.pathToId map.idToPath)
    (h' : Inverse map'.pathToId map'.idToPath)
    (hlookup : ∀ path id, map'.pathToId.lookup path = some id ↔
      map.pathToId.lookup path = some id) : map' = map := by
  ext1
  · exact Finmap.ext_lookup fun path => Option.ext fun id => hlookup path id
  · refine Finmap.ext_lookup fun id => Option.ext fun path => ?_
    rw [← h', ← h, hlookup]

section File

variable [PathText π]

omit [LinearOrder π] in
theorem recordOfJson_recordToJson {record : FileIdRecord π} {value : JsonValue}
    (h : recordToJson record = some value) : recordOfJson value = some record := by
  obtain ⟨text, htext, rfl⟩ := Option.map_eq_some_iff.mp h
  have hpath : (⟨[("path", .string text), ("file_id", JsonCodec.toJson record.fileId)]⟩ :
      JsonObject).field "path" = some text := JsonObject.field_of_lookup rfl
  have hid : (⟨[("path", .string text), ("file_id", JsonCodec.toJson record.fileId)]⟩ :
      JsonObject).field "file_id" = some record.fileId := JsonObject.field_of_lookup rfl
  rw [recordOfJson, hpath, hid]
  simp only [Option.bind_eq_bind, Option.bind_some, PathText.ofText_toText _ _ htext]
  rfl

omit [LinearOrder π] in
theorem mapM_recordOfJson {records : List (FileIdRecord π)} {items : List JsonValue}
    (h : records.mapM recordToJson = some items) : items.mapM recordOfJson = some records := by
  induction records generalizing items with
  | nil =>
    obtain rfl : [] = items := Option.some.inj h
    rfl
  | cons record records ih =>
    rw [List.mapM_cons] at h
    obtain ⟨value, hvalue, h⟩ := Option.bind_eq_some_iff.mp h
    obtain ⟨rest, hrest, h⟩ := Option.bind_eq_some_iff.mp h
    obtain rfl := Option.some.inj h
    rw [List.mapM_cons, recordOfJson_recordToJson hvalue, ih hrest]
    rfl

/-- What was saved is loaded. -/
theorem load_save (h : Inverse map.pathToId map.idToPath) {content : JsonValue}
    (hsave : map.save = .ok content) : load (some content) = .ok map := by
  rw [save] at hsave
  rcases hitems : map.records.mapM recordToJson with _ | items
  · rw [hitems] at hsave
    cases hsave
  · rw [hitems] at hsave
    obtain rfl := Except.ok.inj hsave
    rw [load, mapM_recordOfJson hitems]
    change fromRecordsInto new map.records = .ok map
    have haddable : Addable new map.records :=
      ⟨nodup_path_records, nodup_fileId_records h, fun _ _ => ⟨rfl, rfl⟩⟩
    obtain ⟨map', hmap'⟩ := fromRecordsInto_ok_iff.mpr haddable
    obtain ⟨hinverse, hlookup⟩ := fromRecordsInto_spec hmap' inverse_empty
    rw [hmap', eq_of_pathToId h hinverse fun path id => ?_]
    rw [hlookup, mem_records]
    simp [new]

/-- A map whose paths are Unicode can be saved. -/
theorem exists_save (h : ∀ path id, map.pathToId.lookup path = some id →
    (PathText.toText path).isSome) : ∃ content, map.save = .ok content := by
  have hall : ∀ record ∈ map.records, (recordToJson record).isSome := by
    intro record hrecord
    rw [recordToJson, Option.isSome_map]
    exact h _ _ (mem_records.mp hrecord)
  have hitems : ∃ items, map.records.mapM recordToJson = some items := by
    generalize map.records = records at hall
    induction records with
    | nil => exact ⟨[], rfl⟩
    | cons record records ih =>
      obtain ⟨value, hvalue⟩ := Option.isSome_iff_exists.mp (hall record List.mem_cons_self)
      obtain ⟨items, hitems⟩ := ih fun r hr => hall r (List.mem_cons_of_mem _ hr)
      exact ⟨value :: items, by rw [List.mapM_cons, hvalue, hitems]; rfl⟩
  obtain ⟨items, hitems⟩ := hitems
  exact ⟨.array items, by rw [save, hitems]⟩

/-- Exactly the files are loaded whose records have no path and no identity twice. -/
theorem load_ok_iff {items : List JsonValue} {records : List (FileIdRecord π)}
    (h : items.mapM recordOfJson = some records) :
    (∃ map, load (some (.array items)) = .ok (map : FileIdMap π)) ↔
      (records.map FileIdRecord.path).Nodup ∧ (records.map FileIdRecord.fileId).Nodup := by
  rw [load, h]
  exact fromRecordsInto_ok_iff.trans
    ⟨fun h => ⟨h.1, h.2.1⟩, fun h => ⟨h.1, h.2, fun _ _ => ⟨rfl, rfl⟩⟩⟩

end File

/-! ### Sequences of operations -/

end FileIdMap

/-- An operation, with the random identity that it draws if it needs one. -/
inductive FileIdOp (π : Type)
  | trackNew (path : π) (random : FileId)
  | trackRename (oldPath newPath : π)
  | trackCopy (srcPath dstPath : π) (random : FileId)
  | trackDelete (path : π)

namespace FileIdOp

variable {π : Type} [LinearOrder π]

def apply (map : FileIdMap π) : FileIdOp π → FileIdMap.Outcome π
  | .trackNew path random => map.trackNew path random
  | .trackRename oldPath newPath => map.trackRename oldPath newPath
  | .trackCopy srcPath dstPath random => map.trackCopy srcPath dstPath random
  | .trackDelete path => map.trackDelete path

/-- The random identity that an operation drew. -/
def drawn (map : FileIdMap π) : FileIdOp π → List FileId
  | .trackNew path random => (map.trackNew path random).1.toOption.toList
  | .trackCopy srcPath dstPath random => (map.trackCopy srcPath dstPath random).1.toOption.toList
  | .trackRename .. | .trackDelete .. => []

end FileIdOp

namespace FileIdMap

variable {π : Type} [LinearOrder π] {map : FileIdMap π} {ids : List FileId}

/-- The maps that sequences of operations lead to, with the random identities that were drawn, all
of them different. -/
inductive Tracks : List FileId → FileIdMap π → Prop
  | new : Tracks [] new
  | step {ids : List FileId} {map : FileIdMap π} (h : Tracks ids map) (op : FileIdOp π)
      (hfresh : ∀ id ∈ op.drawn map, id ∉ ids) :
      Tracks (op.drawn map ++ ids) (op.apply map).2

/-- A bijection between paths and identities that were drawn. -/
def Consistent (ids : List FileId) (map : FileIdMap π) : Prop :=
  Inverse map.pathToId map.idToPath ∧ ∀ path id, map.pathToId.lookup path = some id → id ∈ ids

theorem Consistent.idToPath_eq_none (h : Consistent ids map) {id : FileId} (hid : id ∉ ids) :
    map.idToPath.lookup id = none := by
  rcases hlookup : map.idToPath.lookup id with _ | path
  · rfl
  · exact absurd (h.2 path id ((h.1 path id).mpr hlookup)) hid

/-- A pair of a new path and a fresh identity. -/
theorem Consistent.add (h : Consistent ids map) {path : π} {random : FileId}
    (hpath : map.pathToId.lookup path = none) (hfresh : random ∉ ids) :
    Consistent (random :: ids) (map.add ⟨path, random⟩) := by
  refine ⟨h.1.insert hpath (h.idToPath_eq_none hfresh), fun p id hp => ?_⟩
  rw [FileIdMap.add, FiniteMap.lookup_insert] at hp
  split_ifs at hp with heq
  · obtain rfl := Option.some.inj hp
    exact List.mem_cons_self
  · exact List.mem_cons_of_mem _ (h.2 p id hp)

/-- A file that was renamed keeps its identity. -/
theorem trackRename_ok {oldPath newPath : π} {id : FileId}
    (h : (map.trackRename oldPath newPath).1 = .ok id) :
    map.pathToId.lookup oldPath = some id ∧
      ((map.pathToId.erase oldPath).lookup newPath = none ∨
        (map.pathToId.erase oldPath).lookup newPath = some id) ∧
      (map.trackRename oldPath newPath).2 =
        { pathToId := (map.pathToId.erase oldPath).insert newPath id
          idToPath := map.idToPath.insert id newPath } := by
  rw [trackRename] at h ⊢
  rcases hid : map.pathToId.lookup oldPath with _ | known
  · rw [hid] at h
    cases h
  · rw [hid] at h
    simp only at h ⊢
    split_ifs at h with hother
    obtain rfl := Except.ok.inj h
    rw [if_neg hother]
    refine ⟨rfl, ?_, rfl⟩
    rcases hnew : (map.pathToId.erase oldPath).lookup newPath with _ | other
    · exact .inl rfl
    · rw [hnew] at hother
      exact .inr (by simpa using hother)

theorem trackNew_ok {path : π} {random id : FileId} (h : (map.trackNew path random).1 = .ok id) :
    id = random ∧ map.pathToId.lookup path = none ∧
      (map.trackNew path random).2 = map.add ⟨path, random⟩ := by
  rw [trackNew] at h ⊢
  split_ifs at h with hpath
  rw [if_neg hpath]
  exact ⟨(Except.ok.inj h).symm, by simpa [containsPath] using hpath, rfl⟩

theorem trackCopy_ok {srcPath dstPath : π} {random id : FileId}
    (h : (map.trackCopy srcPath dstPath random).1 = .ok id) :
    id = random ∧ (map.pathToId.lookup srcPath).isSome ∧ map.pathToId.lookup dstPath = none ∧
      (map.trackCopy srcPath dstPath random).2 = map.add ⟨dstPath, random⟩ := by
  rw [trackCopy] at h ⊢
  split_ifs at h with hsrc hdst
  rw [if_neg hsrc, if_neg hdst]
  exact ⟨(Except.ok.inj h).symm, by simpa [containsPath, Option.isSome_iff_ne_none] using hsrc,
    by simpa [containsPath] using hdst, rfl⟩

theorem trackDelete_ok {path : π} {id : FileId} (h : (map.trackDelete path).1 = .ok id) :
    map.pathToId.lookup path = some id ∧
      (map.trackDelete path).2 = { pathToId := map.pathToId.erase path
                                   idToPath := map.idToPath.erase id } := by
  rw [trackDelete] at h ⊢
  rcases hid : map.pathToId.lookup path with _ | known
  · rw [hid] at h
    cases h
  · rw [hid] at h
    obtain rfl := Except.ok.inj h
    exact ⟨rfl, rfl⟩

/-- Putting an entry back that was taken out gives the map as it was. -/
theorem insert_erase {path : π} {id : FileId} (h : map.pathToId.lookup path = some id) :
    (map.pathToId.erase path).insert path id = map.pathToId := by
  refine Finmap.ext_lookup fun other => ?_
  rw [FiniteMap.lookup_insert, FiniteMap.lookup_erase]
  split_ifs with heq
  · rw [heq, h]
  · rfl

/-- An operation that fails leaves the map as it was. -/
theorem apply_error {op : FileIdOp π} {error : FileIdMapError π}
    (h : (op.apply map).1 = .error error) : (op.apply map).2 = map := by
  cases op with
  | trackNew path random =>
    rw [FileIdOp.apply, trackNew] at h ⊢
    split_ifs at h with hpath
    rw [if_pos hpath]
  | trackRename oldPath newPath =>
    rw [FileIdOp.apply, trackRename] at h ⊢
    rcases hid : map.pathToId.lookup oldPath with _ | id
    · rfl
    · rw [hid] at h
      simp only at h ⊢
      split_ifs at h with hother
      rw [if_pos hother, insert_erase hid]
  | trackCopy srcPath dstPath random =>
    rw [FileIdOp.apply, trackCopy] at h ⊢
    split_ifs at h with hsrc hdst
    · rw [if_pos hsrc]
    · rw [if_neg hsrc, if_pos hdst]
  | trackDelete path =>
    rw [FileIdOp.apply, trackDelete] at h ⊢
    rcases hid : map.pathToId.lookup path with _ | id
    · rfl
    · rw [hid] at h
      cases h

/-- A successful operation keeps the bijection. -/
theorem Consistent.apply (h : Consistent ids map) {op : FileIdOp π}
    (hfresh : ∀ id ∈ op.drawn map, id ∉ ids) {id : FileId} (hok : (op.apply map).1 = .ok id) :
    Consistent (op.drawn map ++ ids) (op.apply map).2 := by
  cases op with
  | trackNew path random =>
    have hdrawn : (FileIdOp.trackNew path random).drawn map = [id] := by
      rw [FileIdOp.drawn, show (map.trackNew path random).1 = .ok id from hok]
      rfl
    obtain ⟨rfl, hpath, hmap⟩ := trackNew_ok hok
    rw [hdrawn] at hfresh ⊢
    rw [FileIdOp.apply, hmap]
    exact h.add hpath (hfresh id List.mem_cons_self)
  | trackRename oldPath newPath =>
    obtain ⟨hold, hnew, hmap⟩ := trackRename_ok hok
    rw [FileIdOp.apply, hmap]
    have hfree : (map.pathToId.erase oldPath).lookup newPath = none := by
      refine hnew.resolve_right fun hid => ?_
      rw [FiniteMap.lookup_erase] at hid
      split_ifs at hid with heq
      exact heq (h.1.injective hid hold)
    refine ⟨h.1.move hold hfree, fun path known hpath => ?_⟩
    rw [FiniteMap.lookup_insert, FiniteMap.lookup_erase] at hpath
    split_ifs at hpath
    · obtain rfl := Option.some.inj hpath
      exact h.2 _ _ hold
    · exact h.2 _ _ hpath
  | trackCopy srcPath dstPath random =>
    have hdrawn : (FileIdOp.trackCopy srcPath dstPath random).drawn map = [id] := by
      rw [FileIdOp.drawn, show (map.trackCopy srcPath dstPath random).1 = .ok id from hok]
      rfl
    obtain ⟨rfl, -, hdst, hmap⟩ := trackCopy_ok hok
    rw [hdrawn] at hfresh ⊢
    rw [FileIdOp.apply, hmap]
    exact h.add hdst (hfresh id List.mem_cons_self)
  | trackDelete path =>
    obtain ⟨hpath, hmap⟩ := trackDelete_ok hok
    rw [FileIdOp.apply, hmap]
    refine ⟨h.1.erase hpath, fun other known hother => ?_⟩
    rw [FiniteMap.lookup_erase] at hother
    split_ifs at hother
    exact h.2 _ _ hother

/-- The invariant of a run. -/
theorem Tracks.consistent (h : Tracks ids map) : Consistent ids map := by
  induction h with
  | new => exact ⟨inverse_empty, fun path id hid => by simp [FileIdMap.new] at hid⟩
  | @step ids map _ op hfresh ih =>
    rcases hresult : (op.apply map).1 with error | id
    · rw [apply_error hresult]
      exact ⟨ih.1, fun path id hid => List.mem_append_right _ (ih.2 path id hid)⟩
    · exact ih.apply hfresh hresult

end FileIdMap

end Maw
