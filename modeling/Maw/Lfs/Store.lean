import Maw.Lfs.PointerCodec
import Maw.Library.Triples

/-!
# The object store

The contents of large files are stored under their hashes. A new object is streamed into a
temporary file that nobody else writes, hashed on the way, and renamed to the path of its hash; an
object that is there already is kept. Any number of processes do so at the same time, and each may
crash between two operations or fail in one.

## Main definitions

* `StoreFiles`, `StoreOp` — the files of the store, and the operations on them.
* `insertFromReader`, `insertFromStream`, `openObject`, `cleanBlob` — the calls.
* `Sound` — every object has the hash that it is stored under.

## Main results

* `store_integrity` — in every run of such calls, objects are sound and stay, and a call that
  returns has done what it says.
-/

open Interleaved

namespace Maw.Lfs

/-- Where a file of the store lies: the names on the way to it. -/
abbrev StorePath := List Bytes

def objectsDir : Bytes := "objects".toUTF8.toList

def bufSize : ℕ := 64 * 1024

def tmpDir : StorePath := ["tmp".toUTF8.toList]

/-- The path of an object. -/
def objectPath (oid : Oid) : StorePath :=
  [objectsDir, (oidHex oid).take 2, ((oidHex oid).drop 2).take 2, oidHex oid]

/-- A file, and the process that created it. -/
structure StoreFile (ι : Type) where
  content : Bytes
  creator : ι

abbrev StoreFiles (ι : Type) := StorePath → Option (StoreFile ι)

inductive StoreError
  | io (path : StorePath)
  | contentMismatch (expected : Option Oid) (expectedSize : UInt64) (got : Option Oid)
      (gotSize : UInt64)
  deriving DecidableEq

inductive StoreOp (ι : Type)
  | createDirAll (dir : StorePath)
  | newTemp (who : ι)
  | writeAll (path : StorePath) (chunk : Bytes)
  | syncAll (path : StorePath)
  | keep (path : StorePath)
  | removeFile (path : StorePath)
  | pathExists (path : StorePath)
  | rename (src dst : StorePath)
  | openFile (path : StorePath)

namespace StoreOp

variable {ι : Type}

/-- What an operation returns. -/
abbrev Ret : StoreOp ι → Type
  | newTemp _ => StorePath
  | pathExists _ => Bool
  | openFile _ => Option Bytes
  | _ => Unit

/-- Add to what stands in a file. -/
def append (files : StoreFiles ι) (path : StorePath) (chunk : Bytes) : StoreFiles ι :=
  Function.update files path ((files path).map fun f => { f with content := f.content ++ chunk })

/-- What an operation does. A write that fails may have written a part. A file that cannot be
looked at counts as one that does not exist. -/
def exec : (op : StoreOp ι) → StoreFiles ι → Except StoreError op.Ret → StoreFiles ι → Prop
  | createDirAll dir, files, r, files' => (r = .ok () ∨ r = .error (.io dir)) ∧ files' = files
  | newTemp who, files, r, files' =>
    (∃ name, files (tmpDir ++ [name]) = none ∧ r = .ok (tmpDir ++ [name]) ∧
        files' = Function.update files (tmpDir ++ [name]) (some ⟨[], who⟩)) ∨
      r = .error (.io tmpDir) ∧ files' = files
  | writeAll path chunk, files, r, files' =>
    (r = .ok () ∧ files' = append files path chunk) ∨
      r = .error (.io path) ∧ ∃ part, part <+: chunk ∧ files' = append files path part
  | syncAll path, files, r, files' => (r = .ok () ∨ r = .error (.io path)) ∧ files' = files
  | keep path, files, r, files' => (r = .ok () ∨ r = .error (.io path)) ∧ files' = files
  | removeFile path, files, r, files' =>
    (r = .ok () ∧ files' = Function.update files path none) ∨
      r = .error (.io path) ∧ files' = files
  | pathExists path, files, r, files' =>
    (r = .ok false ∨ r = .ok true ∧ (files path).isSome) ∧ files' = files
  | rename src dst, files, r, files' =>
    (∃ f, files src = some f ∧ r = .ok () ∧
        files' = Function.update (Function.update files dst (some f)) src none) ∨
      r = .error (.io dst) ∧ files' = files
  | openFile path, files, r, files' =>
    (r = .ok ((files path).map StoreFile.content) ∨ r = .error (.io path)) ∧ files' = files

/-- The operations that change no file. -/
def Still : StoreOp ι → Prop
  | createDirAll _ | syncAll _ | keep _ | pathExists _ | openFile _ => True
  | _ => False

theorem Still.eq {op : StoreOp ι} (hop : op.Still) {files files' : StoreFiles ι}
    {r : Except StoreError op.Ret} (h : exec op files r files') : files' = files := by
  cases op <;> first | exact h.2 | exact hop.elim

end StoreOp

/-- Programs on the store. -/
abbrev StoreProg (ι : Type) := Fallible StoreError (StoreOp ι) StoreOp.Ret

/-- What the reads from a stream give, one after the other. -/
abbrev Reader := List (Except Unit Bytes)

/-- What a stream gives up to its end, if no read fails. -/
def readAll : Reader → Option Bytes
  | [] => some []
  | .error _ :: _ => none
  | .ok chunk :: reader =>
    if chunk.isEmpty then some [] else (readAll reader).map (chunk ++ ·)

section Calls

variable {ι : Type} (hash : Bytes → Oid) (who : ι)

/-- Copy a stream into a file. What was read so far is what is hashed. -/
def copyChunks (path : StorePath) (expectedOid : Option Oid) (expectedSize : Option UInt64) :
    Reader → (data : Bytes) → (total : UInt64) → StoreProg ι (Bytes × UInt64)
  | [], data, total => pure (data, total)
  | .error _ :: _, _, _ => throw (.io path)
  | .ok chunk :: reader, data, total =>
    if chunk.isEmpty then pure (data, total)
    else do
      attempt (StoreOp.writeAll path chunk)
      match expectedSize with
      | some es =>
        if es < total + UInt64.ofNat chunk.length then
          throw (.contentMismatch expectedOid es none (total + UInt64.ofNat chunk.length))
        else
          copyChunks path expectedOid expectedSize reader (data ++ chunk)
            (total + UInt64.ofNat chunk.length)
      | none =>
        copyChunks path expectedOid expectedSize reader (data ++ chunk)
          (total + UInt64.ofNat chunk.length)

/-- Fill a new temporary file from a stream; one that is not kept is removed. -/
def fillTemp (path : StorePath) (expectedOid : Option Oid) (expectedSize : Option UInt64)
    (reader : Reader) : StoreProg ι (Bytes × UInt64) :=
  onError
    (do
      let filled ← copyChunks path expectedOid expectedSize reader [] 0
      attempt (StoreOp.syncAll path)
      attempt (StoreOp.keep path)
      return filled)
    (ignoreError (attempt (StoreOp.removeFile path)))

/-- Stream into a temporary file, with the hash and the size of what was read. -/
def streamToTmp (reader : Reader) (expectedOid : Option Oid) (expectedSize : Option UInt64) :
    StoreProg ι (Oid × UInt64 × StorePath) := do
  attempt (StoreOp.createDirAll tmpDir)
  let path ← attempt (StoreOp.newTemp who)
  let (data, total) ← fillTemp path expectedOid expectedSize reader
  match expectedOid, expectedSize with
  | some eo, some es =>
    if hash data ≠ eo ∨ total ≠ es then
      ignoreError (attempt (StoreOp.removeFile path))
      throw (.contentMismatch eo es (hash data) total)
    else return (hash data, total, path)
  | _, _ => return (hash data, total, path)

/-- Move a finished temporary file to its place, or drop it if the object is there already. -/
def commitTmp (tmp final : StorePath) : StoreProg ι Unit := do
  if ← attempt (StoreOp.pathExists final) then ignoreError (attempt (StoreOp.removeFile tmp))
  else
    attempt (StoreOp.createDirAll final.dropLast)
    handle (attempt (StoreOp.rename tmp final)) fun e => do
      -- Another process may have been faster.
      if ← attempt (StoreOp.pathExists final) then ignoreError (attempt (StoreOp.removeFile tmp))
      else throw e

def insertFromReader (reader : Reader) : StoreProg ι (Pointer × UInt64) := do
  let (oid, size, tmp) ← streamToTmp hash who reader none none
  commitTmp tmp (objectPath oid)
  return (⟨oid, size, []⟩, size)

def insertFromStream (expectedOid : Oid) (expectedSize : UInt64) (reader : Reader) :
    StoreProg ι Unit := do
  let (oid, size, tmp) ← streamToTmp hash who reader (some expectedOid) (some expectedSize)
  if oid ≠ expectedOid ∨ size ≠ expectedSize then
    ignoreError (attempt (StoreOp.removeFile tmp))
    throw (.contentMismatch expectedOid expectedSize oid size)
  else commitTmp tmp (objectPath oid)

/-- What a stream over bytes gives. -/
def cursor (data : Bytes) : Reader :=
  if data.isEmpty then [] else .ok (data.take bufSize) :: cursor (data.drop bufSize)
termination_by data.length
decreasing_by
  have hne : data ≠ [] := by simpa using ‹¬ data.isEmpty = true›
  have hpos := List.length_pos_iff.mpr hne
  rw [List.length_drop, bufSize]
  omega

/-- The blob of a file, which is a pointer to its contents if the file is to be stored in LFS. -/
def cleanBlob (lfs : Bool) (data : Bytes) : StoreProg ι Bytes :=
  if !lfs then pure data
  else if data.isEmpty then pure data
  else if looksLikePointer data then pure data
  else do
    attempt (StoreOp.createDirAll [objectsDir])
    let (pointer, _) ← insertFromReader hash who (cursor data)
    return pointer.write

def openObject (oid : Oid) : StoreProg ι (Option Bytes) :=
  attempt (StoreOp.openFile (objectPath oid))

end Calls

/-- A stream over bytes gives them all. -/
theorem readAll_cursor (data : Bytes) : readAll (cursor data) = some data := by
  induction data using cursor.induct with
  | case1 data hempty =>
    rw [cursor, if_pos hempty, List.isEmpty_iff.mp hempty]
    rfl
  | case2 data hne ih =>
    rcases data with _ | ⟨b, data⟩
    · exact absurd rfl hne
    rw [cursor, if_neg hne, readAll, if_neg (by simp [bufSize]), ih, Option.map_some,
      List.take_append_drop]

/-! ### Paths -/

theorem oidHex_injective : Function.Injective oidHex := by
  intro a b h
  have hbytes := congrArg hexBytes h
  change hexBytes (hexOf a.val) = hexBytes (hexOf b.val) at hbytes
  rw [hexBytes_hexOf, hexBytes_hexOf] at hbytes
  exact Subtype.ext (Option.some.inj hbytes)

theorem objectPath_inj {a b : Oid} : objectPath a = objectPath b ↔ a = b := by
  constructor
  · intro h
    simp only [objectPath, List.cons.injEq, and_true] at h
    exact oidHex_injective h.2.2.2
  · rintro rfl
    rfl

theorem objectPath_ne_temp (oid : Oid) (name : Bytes) : objectPath oid ≠ tmpDir ++ [name] := by
  intro h
  have hlength := congrArg List.length h
  simp [objectPath, tmpDir] at hlength

/-! ### The steps of a process -/

section Steps

variable {ι : Type} (hash : Bytes → Oid) (who : ι)

/-- Every object has the hash that it is stored under. -/
def Sound (files : StoreFiles ι) : Prop :=
  ∀ oid f, files (objectPath oid) = some f → hash f.content = oid

def Has (files : StoreFiles ι) (oid : Oid) : Prop := (files (objectPath oid)).isSome

/-- A step of a process adds objects under their hashes, loses none and leaves the temporary
files of the others alone. -/
structure StoreStep (files files' : StoreFiles ι) : Prop where
  sound : ∀ oid f, files' (objectPath oid) = some f →
    files (objectPath oid) = some f ∨ hash f.content = oid
  stays : ∀ oid, Has files oid → Has files' oid
  temps : ∀ name f, files (tmpDir ++ [name]) = some f → f.creator ≠ who →
    files' (tmpDir ++ [name]) = some f

/-- The steps of the others. -/
def StoreRely (files files' : StoreFiles ι) : Prop :=
  ∃ other, other ≠ who ∧ StoreStep hash other files files'

/-- A file of the process, with what stands in it. -/
def Owns (path : StorePath) (data : Bytes) (files : StoreFiles ι) : Prop :=
  files path = some ⟨data, who⟩

variable {hash who} {files files' : StoreFiles ι} {name data : Bytes} {oid : Oid}

theorem StoreStep.refl (files : StoreFiles ι) : StoreStep hash who files files :=
  ⟨fun _ _ => .inl, fun _ h => h, fun _ _ h _ => h⟩

theorem StoreStep.keepsSound (h : StoreStep hash who files files') (hsound : Sound hash files) :
    Sound hash files' := fun oid f hf => (h.sound oid f hf).elim (hsound oid f) id

/-- A new temporary file, or a change to one of the process. -/
theorem StoreStep.temp {f' : Option (StoreFile ι)}
    (hown : ∀ f, files (tmpDir ++ [name]) = some f → f.creator = who) :
    StoreStep hash who files (Function.update files (tmpDir ++ [name]) f') where
  sound oid f hf := by
    rw [Function.update_of_ne (objectPath_ne_temp oid name)] at hf
    exact .inl hf
  stays oid h := by rwa [Has, Function.update_of_ne (objectPath_ne_temp oid name)]
  temps other f hf hne := by
    have hpath : tmpDir ++ [other] ≠ tmpDir ++ [name] := fun heq =>
      hne (hown f (by rw [← heq]; exact hf))
    rwa [Function.update_of_ne hpath]

/-- A temporary file of the process takes the place of the object. -/
theorem StoreStep.commit (h : Owns who (tmpDir ++ [name]) data files) (hash_eq : hash data = oid) :
    StoreStep hash who files (Function.update (Function.update files (objectPath oid)
      (some ⟨data, who⟩)) (tmpDir ++ [name]) none) where
  sound other f hf := by
    rw [Function.update_of_ne (objectPath_ne_temp other name)] at hf
    by_cases heq : other = oid
    · rw [heq, Function.update_self] at hf
      obtain rfl := Option.some.inj hf
      exact .inr (hash_eq.trans heq.symm)
    · rw [Function.update_of_ne (objectPath_inj.not.mpr heq)] at hf
      exact .inl hf
  stays other hhas := by
    rw [Has, Function.update_of_ne (objectPath_ne_temp other name)]
    by_cases heq : other = oid
    · rw [heq, Function.update_self]
      rfl
    · rwa [Function.update_of_ne (objectPath_inj.not.mpr heq)]
  temps other f hf hne := by
    have hpath : tmpDir ++ [other] ≠ tmpDir ++ [name] := by
      intro heq
      rw [heq, h] at hf
      exact hne (Option.some.inj hf ▸ rfl)
    rwa [Function.update_of_ne hpath, Function.update_of_ne (objectPath_ne_temp oid other).symm]

theorem stable_owns (name data : Bytes) :
    Stable (StoreRely hash who) (Owns who (tmpDir ++ [name]) data) := by
  rintro files files' ⟨other, hne, hstep⟩ h
  exact hstep.temps name _ h hne.symm

theorem stable_has (oid : Oid) : Stable (StoreRely hash who) fun files => Has files oid :=
  fun _ _ ⟨_, _, hstep⟩ h => hstep.stays oid h

theorem stable_true : Stable (StoreRely hash who) fun _ => True := fun _ _ _ _ => trivial

end Steps

/-! ### What the calls promise -/

section Triples

variable {ι : Type} {hash : Bytes → Oid} {who : ι} {name data : Bytes} {oid : Oid}

/-- A program that, amid the steps of the others, takes steps of the process only. -/
abbrev StoreTriple (hash : Bytes → Oid) (who : ι) {α : Type} (P : StoreFiles ι → Prop)
    (p : StoreProg ι α) (R : α → StoreFiles ι → Prop) (E : StoreFiles ι → Prop) : Prop :=
  Triple StoreOp.exec (StoreRely hash who) (StoreStep hash who) P p R E

/-- An operation that changes no file. -/
theorem triple_still {op : StoreOp ι} {P : StoreFiles ι → Prop} {R : op.Ret → StoreFiles ι → Prop}
    {E : StoreFiles ι → Prop} (hP : Stable (StoreRely hash who) P)
    (hR : ∀ a, Stable (StoreRely hash who) (R a)) (hE : Stable (StoreRely hash who) E)
    (hop : op.Still)
    (hok : ∀ files a, P files → StoreOp.exec op files (.ok a) files → R a files)
    (herror : ∀ files, P files → E files) : StoreTriple hash who P (attempt op) R E := by
  refine triple_attempt hP hR hE fun files r files' h hexec => ?_
  obtain rfl := hop.eq hexec
  refine ⟨.refl _, ?_⟩
  rcases r with e | a
  · exact herror _ h
  · exact hok _ _ h hexec

/-- A temporary file of the process is removed, or not. -/
theorem triple_removeTemp {I E : StoreFiles ι → Prop} (hI : Stable (StoreRely hash who) I)
    (hkeeps : ∀ files, I files → I (Function.update files (tmpDir ++ [name]) none)) :
    StoreTriple hash who (fun files => I files ∧ ∃ data, Owns who (tmpDir ++ [name]) data files)
      (ignoreError (attempt (StoreOp.removeFile (tmpDir ++ [name])))) (fun _ => I) E := by
  refine triple_ignoreError hI (Meets.imp
    (triple_attempt (R := fun _ => I) (E := I) ?_ (fun _ => hI) hI ?_) ?_)
  · rintro files files' hrely ⟨h, data, howns⟩
    exact ⟨hI _ _ hrely h, data, stable_owns name data _ _ hrely howns⟩
  · rintro files r files' ⟨h, data, howns⟩ (⟨rfl, rfl⟩ | ⟨rfl, rfl⟩)
    · refine ⟨.temp fun f hf => ?_, hkeeps _ h⟩
      exact (Option.some.inj (howns.symm.trans hf)) ▸ rfl
    · exact ⟨.refl _, h⟩
  · rintro (e | u) files h <;> exact h

theorem stable_ownsSome (name : Bytes) :
    Stable (StoreRely hash who) fun files => ∃ data, Owns who (tmpDir ++ [name]) data files :=
  fun _ _ hrely ⟨data, howns⟩ => ⟨data, stable_owns name data _ _ hrely howns⟩

theorem append_owns {files : StoreFiles ι} {path : StorePath} {chunk : Bytes}
    (h : Owns who path data files) : Owns who path (data ++ chunk) (StoreOp.append files path chunk) := by
  rw [Owns, StoreOp.append, Function.update_self, h]
  rfl

/-- A chunk that is written to a temporary file of the process, in part if that fails. -/
theorem triple_writeAll (chunk : Bytes) :
    StoreTriple hash who (Owns who (tmpDir ++ [name]) data)
      (attempt (StoreOp.writeAll (tmpDir ++ [name]) chunk))
      (fun _ => Owns who (tmpDir ++ [name]) (data ++ chunk))
      (fun files => ∃ data, Owns who (tmpDir ++ [name]) data files) := by
  refine triple_attempt (stable_owns _ _) (fun _ => stable_owns _ _) (stable_ownsSome _) ?_
  rintro files r files' h hexec
  have hown : ∀ f, files (tmpDir ++ [name]) = some f → f.creator = who := fun f hf =>
    (Option.some.inj (h.symm.trans hf)) ▸ rfl
  rcases hexec with ⟨rfl, rfl⟩ | ⟨rfl, part, -, rfl⟩
  · exact ⟨.temp hown, append_owns h⟩
  · exact ⟨.temp hown, _, append_owns h⟩

/-- Copying a stream to its end writes what it gives. -/
theorem triple_copyChunks (eo : Option Oid) (es : Option UInt64) (reader : Reader) (total : UInt64) :
    StoreTriple hash who (Owns who (tmpDir ++ [name]) data)
      (copyChunks (tmpDir ++ [name]) eo es reader data total)
      (fun filled files => (∃ rest, readAll reader = some rest ∧
        filled = (data ++ rest, total + UInt64.ofNat rest.length)) ∧
          Owns who (tmpDir ++ [name]) filled.1 files)
      (fun files => ∃ data, Owns who (tmpDir ++ [name]) data files) := by
  induction reader generalizing data total with
  | nil =>
    refine triple_pure (stable_owns _ _) fun files h => ⟨⟨[], rfl, ?_⟩, h⟩
    simp
  | cons read reader ih =>
    rcases read with e | chunk
    · exact triple_throw (stable_owns _ _) fun files h => ⟨data, h⟩
    rw [copyChunks.eq_def]
    dsimp only
    split_ifs with hchunk
    · refine triple_pure (stable_owns _ _) fun files h => ⟨⟨[], ?_, ?_⟩, h⟩
      · rw [readAll, if_pos hchunk]
      · simp
    · have hread (rest : Bytes) (hrest : readAll reader = some rest) :
          readAll (.ok chunk :: reader) = some (chunk ++ rest) := by
        rw [readAll, if_neg hchunk, hrest, Option.map_some]
      have hnext : StoreTriple hash who (Owns who (tmpDir ++ [name]) (data ++ chunk))
          (copyChunks (tmpDir ++ [name]) eo es reader (data ++ chunk)
            (total + UInt64.ofNat chunk.length))
          (fun filled files => (∃ rest, readAll (.ok chunk :: reader) = some rest ∧
            filled = (data ++ rest, total + UInt64.ofNat rest.length)) ∧
              Owns who (tmpDir ++ [name]) filled.1 files) _ := (ih _).imp ?_ fun _ h => h
      · refine triple_bind (stable_ownsSome _) (triple_writeAll chunk) fun _ => ?_
        rcases es with _ | es
        · exact hnext
        · dsimp only
          split_ifs
          · exact triple_throw (stable_owns _ _) fun files h => ⟨_, h⟩
          · exact hnext
      · rintro filled files ⟨⟨rest, hrest, rfl⟩, h⟩
        refine ⟨⟨chunk ++ rest, hread rest hrest, ?_⟩, h⟩
        rw [List.length_append, UInt64.ofNat_add, List.append_assoc, UInt64.add_assoc]

/-- What was streamed into a temporary file of the process. -/
def Filled (who : ι) (reader : Reader) (path : StorePath) (filled : Bytes × UInt64)
    (files : StoreFiles ι) : Prop :=
  (readAll reader = some filled.1 ∧ filled.2 = UInt64.ofNat filled.1.length) ∧
    Owns who path filled.1 files

theorem stable_filled (reader : Reader) (filled : Bytes × UInt64) :
    Stable (StoreRely hash who) (Filled who reader (tmpDir ++ [name]) filled) :=
  fun _ _ hrely ⟨hread, howns⟩ => ⟨hread, stable_owns name _ _ _ hrely howns⟩

theorem triple_fillTemp (eo : Option Oid) (es : Option UInt64) (reader : Reader) :
    StoreTriple hash who (Owns who (tmpDir ++ [name]) [])
      (fillTemp (tmpDir ++ [name]) eo es reader) (Filled who reader (tmpDir ++ [name]))
      (fun _ => True) := by
  have hstill (op : StoreOp ι) (hop : op.Still) (filled : Bytes × UInt64) :
      StoreTriple hash who (Filled who reader (tmpDir ++ [name]) filled) (attempt op)
        (fun _ => Filled who reader (tmpDir ++ [name]) filled)
        (fun files => ∃ data, Owns who (tmpDir ++ [name]) data files) :=
    triple_still (stable_filled _ _) (fun _ => stable_filled _ _) (stable_ownsSome _) hop
      (fun _ _ h _ => h) fun _ h => ⟨_, h.2⟩
  refine triple_onError (E := fun files => ∃ data, Owns who (tmpDir ++ [name]) data files)
    (stable_filled _) ?_ ?_ stable_true
  · refine triple_bind (stable_ownsSome _) (R := Filled who reader (tmpDir ++ [name]))
      ((triple_copyChunks eo es reader 0).imp ?_ fun _ h => h) fun filled => ?_
    · rintro filled files ⟨⟨rest, hrest, rfl⟩, h⟩
      exact ⟨⟨hrest, UInt64.zero_add _⟩, h⟩
    · refine triple_bind (stable_ownsSome _) (hstill (.syncAll _) trivial filled) fun _ => ?_
      refine triple_bind (stable_ownsSome _) (hstill (.keep _) trivial filled) fun _ => ?_
      exact triple_pure (stable_filled _ _) fun _ h => h
  · have hremove : StoreTriple hash who
        (fun files => ∃ data, Owns who (tmpDir ++ [name]) data files)
        (ignoreError (attempt (StoreOp.removeFile (tmpDir ++ [name])))) (fun _ _ => True)
        (fun _ => True) :=
      (triple_removeTemp stable_true fun _ h => h).of_imp (stable_ownsSome _)
        fun _ h => ⟨trivial, h⟩
    exact Meets.imp hremove fun _ _ _ => trivial

/-- Streaming into a temporary file gives the hash and the size of what stands in it, which are
those that were asked for. -/
theorem triple_streamToTmp (eo : Option Oid) (es : Option UInt64) (reader : Reader) :
    StoreTriple hash who (fun _ => True) (streamToTmp hash who reader eo es)
      (fun streamed files => ∃ name data, streamed.2.2 = tmpDir ++ [name] ∧
        streamed.1 = hash data ∧
        (∀ o s, eo = some o → es = some s → streamed.1 = o ∧ streamed.2.1 = s) ∧
        Filled who reader (tmpDir ++ [name]) (data, streamed.2.1) files) (fun _ => True) := by
  refine triple_bind stable_true (R := fun _ _ => True) (triple_still stable_true
    (fun _ => stable_true) stable_true trivial (fun _ _ _ _ => trivial) fun _ _ => trivial) ?_
  intro _
  refine triple_bind stable_true (R := fun path files => ∃ name, path = tmpDir ++ [name] ∧
    Owns who (tmpDir ++ [name]) [] files) ?_ fun path => ?_
  · refine triple_attempt stable_true ?_ stable_true ?_
    · rintro path files files' hrely ⟨name, rfl, howns⟩
      exact ⟨name, rfl, stable_owns name _ _ _ hrely howns⟩
    · rintro files r files' - (⟨name, hnone, rfl, rfl⟩ | ⟨rfl, rfl⟩)
      · refine ⟨.temp fun f hf => ?_, name, rfl, Function.update_self ..⟩
        rw [hnone] at hf
        cases hf
      · exact ⟨.refl _, trivial⟩
  refine triple_exists fun name => triple_of_fact ?_
  rintro rfl
  refine triple_bind stable_true (triple_fillTemp eo es reader) fun filled => ?_
  have hdone (hmatch : ∀ o s, eo = some o → es = some s → hash filled.1 = o ∧ filled.2 = s) :
      StoreTriple hash who (Filled who reader (tmpDir ++ [name]) filled)
        (pure (hash filled.1, filled.2, tmpDir ++ [name]))
        (fun streamed files => ∃ name data, streamed.2.2 = tmpDir ++ [name] ∧
          streamed.1 = hash data ∧
          (∀ o s, eo = some o → es = some s → streamed.1 = o ∧ streamed.2.1 = s) ∧
          Filled who reader (tmpDir ++ [name]) (data, streamed.2.1) files) (fun _ => True) :=
    triple_pure (stable_filled _ _) fun files h => ⟨name, filled.1, rfl, rfl, hmatch, h⟩
  rcases eo with _ | eo
  · exact hdone fun o s ho => by cases ho
  rcases es with _ | es
  · exact hdone fun o s _ hs => by cases hs
  dsimp only
  split_ifs with hne
  · refine triple_bind stable_true (R := fun _ _ => True) ?_ fun _ =>
      triple_throw stable_true fun _ _ => trivial
    exact (triple_removeTemp stable_true fun _ h => h).of_imp (stable_filled _ _)
      fun _ h => ⟨trivial, _, h.2⟩
  · push Not at hne
    refine hdone fun o s ho hs => ?_
    obtain rfl := Option.some.inj ho
    obtain rfl := Option.some.inj hs
    exact hne

/-- A temporary file is moved to the path of its hash, or something stands there already. -/
theorem triple_commitTmp (hdata : hash data = oid) :
    StoreTriple hash who (Owns who (tmpDir ++ [name]) data)
      (commitTmp (tmpDir ++ [name]) (objectPath oid)) (fun _ files => Has files oid)
      (fun _ => True) := by
  have hstable : Stable (StoreRely hash who) fun files : StoreFiles ι =>
      Has files oid ∧ ∃ data, Owns who (tmpDir ++ [name]) data files :=
    fun _ _ hrely h => ⟨stable_has oid _ _ hrely h.1, stable_ownsSome name _ _ hrely h.2⟩
  have hpresent {E : StoreFiles ι → Prop} : StoreTriple hash who
      (fun files => Has files oid ∧ ∃ data, Owns who (tmpDir ++ [name]) data files)
      (ignoreError (attempt (StoreOp.removeFile (tmpDir ++ [name])))) (fun _ files => Has files oid)
      E :=
    triple_removeTemp (stable_has oid) fun files h => by
      rwa [Has, Function.update_of_ne (objectPath_ne_temp oid name)]
  -- What is known after the object was looked for.
  have hexists {E : StoreFiles ι → Prop} (hE : Stable (StoreRely hash who) E)
      (hweak : ∀ files, Owns who (tmpDir ++ [name]) data files → E files) : StoreTriple hash who
      (Owns who (tmpDir ++ [name]) data) (attempt (StoreOp.pathExists (objectPath oid)))
      (fun found files => (found = true → Has files oid) ∧ Owns who (tmpDir ++ [name]) data files)
      E := by
    refine triple_still (stable_owns _ _) ?_ hE trivial ?_ hweak
    · exact fun found files files' hrely h => ⟨fun hfound => stable_has oid _ _ hrely (h.1 hfound),
        stable_owns _ _ _ _ hrely h.2⟩
    · rintro files found h ⟨hfound | ⟨-, hsome⟩, -⟩
      · obtain rfl := Except.ok.inj hfound
        exact ⟨fun hfalse => absurd hfalse Bool.false_ne_true, h⟩
      · exact ⟨fun _ => hsome, h⟩
  have hfound {found : Bool} {E : StoreFiles ι → Prop} {q : StoreProg ι Unit}
      (hq : StoreTriple hash who (Owns who (tmpDir ++ [name]) data) q
        (fun _ files => Has files oid) E) :
      StoreTriple hash who
        (fun files => (found = true → Has files oid) ∧ Owns who (tmpDir ++ [name]) data files)
        (if found = true then ignoreError (attempt (StoreOp.removeFile (tmpDir ++ [name]))) else q)
        (fun _ files => Has files oid) E := by
    have hP : Stable (StoreRely hash who) fun files : StoreFiles ι =>
        (found = true → Has files oid) ∧ Owns who (tmpDir ++ [name]) data files :=
      fun files files' hrely h => ⟨fun hfound => stable_has oid _ _ hrely (h.1 hfound),
        stable_owns _ _ _ _ hrely h.2⟩
    split_ifs with h
    · exact hpresent.of_imp hP fun files hfiles => ⟨hfiles.1 h, _, hfiles.2⟩
    · exact hq.of_imp hP fun files hfiles => hfiles.2
  refine triple_bind stable_true (hexists stable_true fun _ _ => trivial) fun found => hfound ?_
  refine triple_bind stable_true (R := fun _ => Owns who (tmpDir ++ [name]) data)
    (triple_still (stable_owns _ _) (fun _ => stable_owns _ _) stable_true trivial
      (fun _ _ h _ => h) fun _ _ => trivial) fun _ => ?_
  refine triple_handle (E := Owns who (tmpDir ++ [name]) data) (fun _ => stable_has oid) ?_
    fun e => ?_
  · refine triple_attempt (stable_owns _ _) (fun _ => stable_has oid) (stable_owns _ _) ?_
    rintro files r files' h (⟨f, hf, rfl, rfl⟩ | ⟨rfl, rfl⟩)
    · obtain rfl := Option.some.inj (h.symm.trans hf)
      refine ⟨.commit h hdata, ?_⟩
      rw [Ends, Has, Function.update_of_ne (objectPath_ne_temp oid name), Function.update_self]
      rfl
    · exact ⟨.refl _, h⟩
  · refine triple_bind stable_true (hexists stable_true fun _ _ => trivial) fun found => hfound ?_
    exact triple_throw (stable_owns _ _) fun _ _ => trivial

end Triples

/-! ### Runs -/

inductive StoreCall
  | insertFromReader (reader : Reader)
  | insertFromStream (expectedOid : Oid) (expectedSize : UInt64) (reader : Reader)
  | openObject (oid : Oid)
  | cleanBlob (lfs : Bool) (data : Bytes)

namespace StoreCall

/-- What a call returns. -/
abbrev Ret : StoreCall → Type
  | insertFromReader _ => Pointer × UInt64
  | insertFromStream .. => Unit
  | openObject _ => Option Bytes
  | cleanBlob .. => Bytes

variable {ι : Type} (hash : Bytes → Oid)

def program (who : ι) : (call : StoreCall) → StoreProg ι call.Ret
  | insertFromReader reader => Lfs.insertFromReader hash who reader
  | insertFromStream expectedOid expectedSize reader =>
    Lfs.insertFromStream hash who expectedOid expectedSize reader
  | openObject oid => Lfs.openObject oid
  | cleanBlob lfs data => Lfs.cleanBlob hash who lfs data

/-- Several calls before they have started. -/
def pool (calls : ι → StoreCall) (start : StoreFiles ι) :
    Pool (StoreOp ι) (fun op => Except StoreError op.Ret)
      (fun i => Except StoreError (calls i).Ret) (StoreFiles ι) :=
  ⟨fun i => ((calls i).program hash i).run, start⟩

/-- What a call that returned has done: the stream was read to its end and is stored under its
hash; an object that was read has its hash, and one that was not found was not there before; a blob
is the file itself or a pointer to its contents, which are stored. -/
def Done (start : StoreFiles ι) : (call : StoreCall) → call.Ret → StoreFiles ι → Prop
  | insertFromReader reader, (pointer, size), files =>
    ∃ data, readAll reader = some data ∧ size = UInt64.ofNat data.length ∧
      pointer = ⟨hash data, size, []⟩ ∧ Has files (hash data)
  | insertFromStream expectedOid expectedSize reader, _, files =>
    ∃ data, readAll reader = some data ∧ expectedSize = UInt64.ofNat data.length ∧
      hash data = expectedOid ∧ Has files expectedOid
  | openObject oid, some content, _ => hash content = oid
  | openObject oid, none, _ => ¬ Has start oid
  | cleanBlob lfs data, blob, files =>
    (blob = data ∧ (lfs = true → data = [] ∨ looksLikePointer data = true)) ∨
      (blob = Pointer.write ⟨hash data, UInt64.ofNat data.length, []⟩ ∧ lfs = true ∧
        Has files (hash data))

/-- What the store keeps from its start on. -/
def Kept (start files : StoreFiles ι) : Prop :=
  Sound hash files ∧ ∀ oid, Has start oid → Has files oid

variable {hash} {who : ι} {start files files' : StoreFiles ι}

theorem Kept.step (h : Kept hash start files) (hstep : StoreStep hash who files files') :
    Kept hash start files' :=
  ⟨hstep.keepsSound h.1, fun oid hoid => hstep.stays oid (h.2 oid hoid)⟩

theorem stable_kept : Stable (StoreRely hash who) (Kept hash start) :=
  fun _ _ ⟨_, _, hstep⟩ h => h.step hstep

theorem triple_insertFromReader (reader : Reader) :
    StoreTriple hash who (fun _ => True) (Lfs.insertFromReader hash who reader)
      (Done hash start (insertFromReader reader)) (fun _ => True) := by
  refine triple_bind stable_true (triple_streamToTmp none none reader) ?_
  rintro ⟨oid, size, path⟩
  refine triple_exists fun name => triple_exists fun data => triple_of_fact ?_
  rintro rfl
  refine triple_of_fact ?_
  rintro rfl
  refine triple_of_fact fun _ => triple_of_fact fun hread => ?_
  refine triple_bind stable_true (triple_commitTmp rfl) fun _ => ?_
  exact triple_pure (stable_has _) fun files hhas => ⟨data, hread.1, hread.2, rfl, hhas⟩

theorem triple_insertFromStream (eo : Oid) (es : UInt64) (reader : Reader) :
    StoreTriple hash who (fun _ => True) (Lfs.insertFromStream hash who eo es reader)
      (Done hash start (insertFromStream eo es reader)) (fun _ => True) := by
  refine triple_bind stable_true (triple_streamToTmp (some eo) (some es) reader) ?_
  rintro ⟨oid, size, path⟩
  refine triple_exists fun name => triple_exists fun data => triple_of_fact ?_
  rintro rfl
  refine triple_of_fact ?_
  rintro rfl
  refine triple_of_fact fun hmatch => triple_of_fact fun hread => ?_
  obtain ⟨rfl, rfl⟩ := hmatch eo es rfl rfl
  dsimp only
  rw [if_neg (by simp)]
  exact (triple_commitTmp rfl).imp (fun _ files hhas => ⟨data, hread.1, hread.2, rfl, hhas⟩)
    fun _ h => h

theorem triple_openObject (oid : Oid) :
    StoreTriple hash who (Kept hash start) (Lfs.openObject oid)
      (fun content _ => Done hash start (openObject oid) content start) (fun _ => True) := by
  refine triple_still stable_kept (fun _ _ _ _ h => h) stable_true trivial ?_ fun _ _ => trivial
  rintro files content ⟨hsound, hkept⟩ ⟨hread | herror, -⟩
  · obtain rfl := Except.ok.inj hread
    rcases hfile : files (objectPath oid) with _ | f
    · exact fun hhas => by
        have hhas := hkept oid hhas
        rw [Has, hfile] at hhas
        cases hhas
    · exact hsound oid f hfile
  · cases herror

theorem triple_cleanBlob (lfs : Bool) (data : Bytes) :
    StoreTriple hash who (fun _ => True) (Lfs.cleanBlob hash who lfs data)
      (Done hash start (cleanBlob lfs data)) (fun _ => True) := by
  rw [Lfs.cleanBlob]
  split_ifs with hlfs hempty hlooks
  · exact triple_pure stable_true fun _ _ => .inl ⟨rfl, fun h => by simp [h] at hlfs⟩
  · exact triple_pure stable_true fun _ _ => .inl ⟨rfl, fun _ => .inl (List.isEmpty_iff.mp hempty)⟩
  · exact triple_pure stable_true fun _ _ => .inl ⟨rfl, fun _ => .inr hlooks⟩
  · refine triple_bind stable_true (R := fun _ _ => True) (triple_still stable_true
      (fun _ => stable_true) stable_true trivial (fun _ _ _ _ => trivial) fun _ _ => trivial) ?_
    intro _
    refine triple_bind stable_true (@triple_insertFromReader _ _ _ start (cursor data)) ?_
    rintro ⟨pointer, size⟩
    refine triple_exists fun data' => triple_of_fact fun hdata => triple_of_fact ?_
    rintro rfl
    refine triple_of_fact ?_
    rintro rfl
    obtain rfl := Option.some.inj ((readAll_cursor data).symm.trans hdata)
    exact triple_pure (stable_has _) fun _ hhas => .inr ⟨rfl, by simpa using hlfs, hhas⟩

/-- Every call keeps its promise. -/
theorem triple_program (call : StoreCall) :
    StoreTriple hash who (Kept hash start) (call.program hash who) (Done hash start call)
      (fun _ => True) := by
  cases call with
  | insertFromReader reader =>
    exact (triple_insertFromReader reader).of_imp stable_kept fun _ _ => trivial
  | insertFromStream eo es reader =>
    exact (triple_insertFromStream eo es reader).of_imp stable_kept fun _ _ => trivial
  | openObject oid =>
    refine (triple_openObject oid).imp (fun content files h => ?_) fun _ h => h
    rcases content with _ | content <;> exact h
  | cleanBlob lfs data =>
    exact (triple_cleanBlob lfs data).of_imp stable_kept fun _ _ => trivial

end StoreCall

section Runs

variable {ι : Type} [DecidableEq ι] {hash : Bytes → Oid} {calls : ι → StoreCall}
  {start : StoreFiles ι} {events : List (Event ι (StoreOp ι) (StoreFiles ι))}
  {pool : Pool (StoreOp ι) (fun op => Except StoreError op.Ret)
    (fun i => Except StoreError (calls i).Ret) (StoreFiles ι)}

/-- Whatever the order of the steps and wherever a process stops or fails, every object has the
hash that it is stored under, no object is lost in any step, and every call that returned has
stored or read what it promises. -/
theorem store_integrity (hsound : Sound hash start)
    (h : Run StoreOp.exec (StoreCall.pool hash calls start) events pool) :
    Sound hash pool.state ∧ (∀ oid, Has start oid → Has pool.state oid) ∧
      (∀ event ∈ events, ∀ oid, Has event.before oid → Has event.after oid) ∧
      ∀ i r, pool.progs i = .done (.ok r) → (calls i).Done hash start r pool.state := by
  have hstart (i : ι) : ∃ P, P (StoreCall.pool hash calls start).state ∧
      Meets StoreOp.exec (StoreRely hash i) (StoreStep hash i)
        (Ends ((calls i).Done hash start) fun _ => True)
        ((StoreCall.pool hash calls start).progs i) P :=
    ⟨StoreCall.Kept hash start, ⟨hsound, fun _ h => h⟩, StoreCall.triple_program (calls i)⟩
  have hown (i j : ι) (hne : j ≠ i) (s s' : StoreFiles ι) (hstep : StoreStep hash i s s') :
      StoreRely hash j s s' := ⟨i, hne.symm, hstep⟩
  have hevents := (h.meets hown hstart).2
  have hkept : StoreCall.Kept hash start pool.state :=
    h.induction (T := fun s s' => StoreCall.Kept hash start s → StoreCall.Kept hash start s')
      (fun _ hs => hs) (fun _ _ _ h h' hs => h' (h hs))
      (fun event hevent hs => hs.step (hevents event hevent)) ⟨hsound, fun _ h => h⟩
  exact ⟨hkept.1, hkept.2, fun event hevent => (hevents event hevent).stays,
    fun i r hi => h.promise hown hstart hi⟩

/-- A hash of contents that are not too long. -/
def sampleHash (data : Bytes) : Oid := ⟨(data ++ List.replicate 32 0).take 32, by simp⟩

/-- A store in which two bytes were stored. -/
def sampleStored : StoreFiles Bool :=
  Function.update (Function.update (Function.update (fun _ => none) (tmpDir ++ [[1]])
    (some ⟨[7, 8], true⟩)) (objectPath (sampleHash [7, 8])) (some ⟨[7, 8], true⟩))
    (tmpDir ++ [[1]]) none

/-- Where nothing fails, they are stored. -/
theorem sample_inserts : Returns StoreOp.exec (insertFromReader sampleHash true [.ok [7, 8]])
    (fun _ => none) (⟨sampleHash [7, 8], 2, []⟩, 2) sampleStored := by
  let path : StorePath := tmpDir ++ [[1]]
  let files (content : Bytes) : StoreFiles Bool :=
    Function.update (fun _ => none) path (some ⟨content, true⟩)
  have hdir (dir : StorePath) (s : StoreFiles Bool) :
      StoreOp.exec (.createDirAll dir) s (.ok ()) s := ⟨.inl rfl, rfl⟩
  have htemp : StoreOp.exec (.newTemp true) (fun _ => none) (.ok path) (files []) :=
    .inl ⟨[1], rfl, rfl, rfl⟩
  have hwrite : StoreOp.exec (.writeAll path [7, 8]) (files []) (.ok ()) (files [7, 8]) :=
    .inl ⟨rfl, by simp [files, StoreOp.append]⟩
  have hsync : StoreOp.exec (.syncAll path) (files [7, 8]) (.ok ()) (files [7, 8]) :=
    ⟨.inl rfl, rfl⟩
  have hkeep : StoreOp.exec (.keep path) (files [7, 8]) (.ok ()) (files [7, 8]) := ⟨.inl rfl, rfl⟩
  have hexists : StoreOp.exec (.pathExists (objectPath (sampleHash [7, 8]))) (files [7, 8])
      (.ok false) (files [7, 8]) := ⟨.inl rfl, rfl⟩
  have hrename : StoreOp.exec (.rename path (objectPath (sampleHash [7, 8]))) (files [7, 8])
      (.ok ()) sampleStored := .inl ⟨_, Function.update_self .., rfl, rfl⟩
  exact .step (hdir tmpDir _) (.step htemp (.step hwrite (.step hsync (.step hkeep
    (.step hexists (.step (hdir (objectPath (sampleHash [7, 8])).dropLast _)
      (.step hrename (.refl _ _))))))))

/-- One of two processes stores two bytes before the other one starts. -/
theorem store_integrity_sample : ∃ events pool,
    Run StoreOp.exec (StoreCall.pool sampleHash
        (fun _ : Bool => .insertFromReader [.ok [7, 8]]) fun _ => none) events pool ∧
      Sound sampleHash pool.state ∧ Has pool.state (sampleHash [7, 8]) := by
  obtain ⟨more, hrun⟩ := (@Run.nil _ _ _ _ _ _ StoreOp.exec (StoreCall.pool sampleHash
    (fun _ : Bool => .insertFromReader [.ok [7, 8]]) fun _ => none)).runs (i := true) sample_inserts
  obtain ⟨hsound, -, -, hdone⟩ := store_integrity (fun oid f hf => by cases hf) hrun
  obtain ⟨data, hdata, -, -, hhas⟩ := hdone true (⟨sampleHash [7, 8], 2, []⟩, 2) rfl
  obtain rfl := Option.some.inj hdata
  exact ⟨_, _, hrun, hsound, hhas⟩

end Runs

end Maw.Lfs
