import Mathlib.Data.Nat.Notation
import Mathlib.Data.List.Basic
import Maw.Library.Triples

/-!
# The lock of the change store

Processes take the lock of the change store by creating its file, which must not exist yet, and
give it back by removing the file. A process that finds the file reads the record in it and, when
the record is old and its process no longer runs, removes the file and tries again. Processes
crash at any step, and then leave what they have written of the file.

## Main definitions

* `LockFile`, `LockWorld` — the file, and what is known of each process.
* `LockAction.exec` — the system calls.
* `tryBreakStaleLock`, `acquireLock`, `withLock` — the programs.
* `LockStep`, `LockMove` — all that a step of a process, or its crash, may do.
* `LockInv` — a live process with a guard has created the file.

## Main results

* `LockInv.move` — every such step keeps the invariant.
-/

open Interleaved

namespace Maw.Changes

/-- How old a lock is, in seconds, before it may be broken. -/
def lockStaleAfter : ℕ := 30

/-- How long, in seconds, a process waits for the lock. -/
def lockTimeout : ℕ := 5

/-- What the file says of its owner. -/
structure LockRecord where
  pid : ℕ
  createdUnixSecs : ℕ
  deriving DecidableEq, Repr

/-- The text of a record. What is written of a record either does not parse or has its process
id in full, which comes first. -/
structure LockFormat where
  encode : LockRecord → List Char
  parse : List Char → Option LockRecord
  pid_of_parse : ∀ record text record', text <+: encode record → parse text = some record' →
    record'.pid = record.pid

/-- The lock file: which file it is, who created it and what has been written to it. -/
structure LockFile (ι : Type) where
  id : ℕ
  creator : ι
  text : List Char

inductive Life
  | unborn
  | live
  | dead
  deriving DecidableEq

/-- The lock file and the processes with their guards. -/
structure LockWorld (ι : Type) where
  file : Option (LockFile ι)
  nextId : ℕ
  life : ι → Life
  guards : ι → Option ℕ

inductive LockError
  | createDir
  | acquire (operation : String)
  | write
  | sync
  | readStale
  | removeStale
  | timedOut (operation : String)
  deriving DecidableEq, Repr

inductive LockAction
  | start
  | crash
  | createDirAll
  | createNew (operation : String)
  | now
  | write (id : ℕ) (buf : List Char)
  | syncAll (id : ℕ)
  | takeGuard (id : ℕ)
  | readToString
  | pidIsAlive (pid : ℕ)
  | removeStale (read : ℕ)
  | elapsed
  | dropGuard

variable {ι : Type} [DecidableEq ι]

namespace LockAction

/-- What an action returns. A file that was created is known by its id, and so is one that was
read. -/
abbrev Ret (ι : Type) : LockAction → Type
  | createNew _ => Option ℕ
  | now | elapsed => ℕ
  | write .. => ℕ
  | readToString => Option (LockFile ι)
  | pidIsAlive _ => Bool
  | _ => Unit

/-- What an action of a live process does. Files are created and removed at the path of the lock,
and written to wherever they are. -/
def execLive (pid : ι → ℕ) (linux : Bool) (i : ι) :
    (a : LockAction) → LockWorld ι → Except LockError (a.Ret ι) → LockWorld ι → Prop
  | start, _, _, _ => False
  | crash, w, r, w' => r = .ok () ∧ w' = { w with life := Function.update w.life i .dead }
  | createDirAll, w, r, w' => w' = w ∧ (r = .ok () ∨ r = .error .createDir)
  | createNew operation, w, r, w' =>
    (w.file = none ∧ r = .ok (some w.nextId) ∧
        w' = { w with file := some ⟨w.nextId, i, []⟩, nextId := w.nextId + 1 }) ∨
      (w.file ≠ none ∧ r = .ok none ∧ w' = w) ∨
      r = .error (.acquire operation) ∧ w' = w
  | now, w, r, w' | elapsed, w, r, w' => w' = w ∧ ∃ t, r = .ok t
  | write id buf, w, r, w' =>
    (∃ n ≤ buf.length, r = .ok n ∧
        w' = { w with file := w.file.map fun f =>
          if f.id = id then { f with text := f.text ++ buf.take n } else f }) ∨
      r = .error .write ∧ w' = w
  | syncAll _, w, r, w' => w' = w ∧ (r = .ok () ∨ r = .error .sync)
  | takeGuard id, w, r, w' =>
    r = .ok () ∧ w' = { w with guards := Function.update w.guards i (some id) }
  | readToString, w, r, w' => w' = w ∧ (r = .ok w.file ∨ r = .error .readStale)
  -- A process that is not one of these may have the id.
  | pidIsAlive n, w, r, w' =>
    w' = w ∧ (r = .ok true ∨ r = .ok false ∧ linux = true ∧ ∀ j, pid j = n → w.life j ≠ .live)
  | removeStale _, w, r, w' =>
    (w.file ≠ none ∧ r = .ok () ∧ w' = { w with file := none }) ∨
      r = .error .removeStale ∧ w' = w
  -- The error of a removal is ignored.
  | dropGuard, w, r, w' =>
    r = .ok () ∧ w.guards i ≠ none ∧
      (w' = { w with file := none, guards := Function.update w.guards i none } ∨
        w' = { w with guards := Function.update w.guards i none })

/-- What an action does: a process starts once, and acts until it crashes. -/
def exec (pid : ι → ℕ) (linux : Bool) (op : ι × LockAction) (w : LockWorld ι)
    (r : Except LockError (op.2.Ret ι)) (w' : LockWorld ι) : Prop :=
  (op.2 = .start ∧ w.life op.1 = .unborn ∧ (∃ u, r = .ok u) ∧
      w' = { w with life := Function.update w.life op.1 .live }) ∨
    w.life op.1 = .live ∧ op.2.execLive pid linux op.1 w r w'

end LockAction

/-- Programs of processes that use the lock. -/
abbrev LockProg (ι : Type) :=
  Fallible LockError (ι × LockAction) fun op => op.2.Ret ι

/-- An action of a process. -/
def act (i : ι) (a : LockAction) : LockProg ι (a.Ret ι) := attempt (i, a)

section Programs

variable (format : LockFormat) (pid : ι → ℕ) (i : ι)

/-- Write all of a text, however much of it each call writes. -/
def writeAll (id : ℕ) : List Char → LockProg ι Unit
  | [] => pure ()
  | c :: cs => do
    let n ← act i (.write id (c :: cs))
    if _h : n = 0 then throw .write else writeAll id ((c :: cs).drop n)
termination_by buf => buf.length
decreasing_by
  rw [List.length_drop]
  exact Nat.sub_lt (Nat.succ_pos _) (Nat.pos_of_ne_zero _h)

/-- Remove the lock if its record is old and its process does not run. -/
def tryBreakStaleLock : LockProg ι Bool := do
  match ← act i .readToString with
  | none => return false
  | some file =>
    match format.parse file.text with
    | none => return false
    | some record =>
      let now ← act i .now
      if now - record.createdUnixSecs < lockStaleAfter then return false
      else
        let alive ← act i (.pidIsAlive record.pid)
        if alive then return false
        else
          act i (.removeStale file.id)
          return true

/-- Write the record of a lock that was created. -/
def recordLock (id : ℕ) : LockProg ι ℕ := do
  let now ← act i .now
  writeAll i id (format.encode ⟨pid i, now⟩)
  act i (.syncAll id)
  act i (.takeGuard id)
  return id

/-- Try to create the lock, for a number of turns. -/
def lockLoop (operation : String) : ℕ → LockProg ι ℕ
  | 0 => throw (.timedOut operation)
  | turns + 1 => do
    match ← act i (.createNew operation) with
    | some id => recordLock format pid i id
    | none =>
      let broken ← tryBreakStaleLock format i
      if broken then lockLoop operation turns
      else
        let elapsed ← act i .elapsed
        if lockTimeout ≤ elapsed then throw (.timedOut operation)
        else lockLoop operation turns

def acquireLock (operation : String) (turns : ℕ) : LockProg ι ℕ := do
  act i .createDirAll
  lockLoop format pid i operation turns

/-- Take the lock and give it back; what is done in between does not use it. -/
def withLock (operation : String) (turns : ℕ) : LockProg ι Unit := do
  let _ ← acquireLock format pid i operation turns
  act i .dropGuard

/-- A process takes the lock a number of times. -/
def sessions : List (String × ℕ) → LockProg ι Unit
  | [] => pure ()
  | (operation, turns) :: rest => do
    ignoreError (withLock format pid i operation turns)
    sessions rest

/-- A process from its start on. -/
def process (uses : List (String × ℕ)) : LockProg ι Unit := do
  act i .start
  sessions format pid i uses

/-- Each process, and the crash that it may have. -/
def lockPool (uses : ι → List (String × ℕ)) :
    Pool (ι × LockAction) (fun op => Except LockError (op.2.Ret ι))
      (fun _ : ι ⊕ ι => Except LockError Unit) (LockWorld ι) where
  progs
    | .inl i => (process format pid i (uses i)).run
    | .inr i => (act i .crash).run
  state := ⟨none, 0, fun _ => .unborn, fun _ => none⟩

end Programs

/-! ### What a step may do -/

section Steps

variable (format : LockFormat) (pid : ι → ℕ)

/-- All that a step of a process may do. A file is removed by the process that has a guard of it,
or when its creator is dead. -/
inductive LockStep (i : ι) (w : LockWorld ι) : LockWorld ι → Prop
  | refl : LockStep i w w
  | start (h : w.life i = .unborn) :
      LockStep i w { w with life := Function.update w.life i .live }
  | create (hlive : w.life i = .live) (h : w.file = none) :
      LockStep i w { w with file := some ⟨w.nextId, i, []⟩, nextId := w.nextId + 1 }
  | extend {f : LockFile ι} (hf : w.file = some f) (hcreator : f.creator = i) (text : List Char)
      (t : ℕ) (htext : text <+: format.encode ⟨pid i, t⟩) :
      LockStep i w { w with file := some { f with text } }
  | remove {f : LockFile ι} (hf : w.file = some f) (hdead : w.life f.creator = .dead) :
      LockStep i w { w with file := none }
  | take {f : LockFile ι} (hf : w.file = some f) (hcreator : f.creator = i) :
      LockStep i w { w with guards := Function.update w.guards i (some f.id) }
  | drop {f : LockFile ι} (hf : w.file = some f) (hcreator : f.creator = i)
      (file : Option (LockFile ι)) (hfile : file = none ∨ file = some f) :
      LockStep i w { w with file, guards := Function.update w.guards i none }

/-- A step of a process, or its crash. -/
def LockMove : ι ⊕ ι → LockWorld ι → LockWorld ι → Prop
  | .inl i, w, w' => LockStep format pid i w w'
  | .inr i, w, w' => w.life i = .live ∧ w' = { w with life := Function.update w.life i .dead }

/-- What holds at any time: a live process with a guard has created the file. -/
structure LockInv (w : LockWorld ι) : Prop where
  fresh : ∀ f, w.file = some f → f.id < w.nextId
  born : ∀ f, w.file = some f → w.life f.creator ≠ .unborn
  text : ∀ f, w.file = some f → ∃ t, f.text <+: format.encode ⟨pid f.creator, t⟩
  unborn : ∀ i, w.life i = .unborn → w.guards i = none
  guard : ∀ i n, w.life i = .live → w.guards i = some n →
    ∃ f, w.file = some f ∧ f.id = n ∧ f.creator = i

variable {format pid} {w w' : LockWorld ι} {k : ι ⊕ ι} {i j : ι}

/-- A process that is dead stays so. -/
theorem LockMove.dead (h : LockMove format pid k w w') (hj : w.life j = .dead) :
    w'.life j = .dead := by
  rcases k with i | i
  · cases h with
    | start hi =>
      have hne : j ≠ i := fun heq => by simp [heq, hi] at hj
      simpa [hne] using hj
    | _ => exact hj
  · obtain ⟨-, rfl⟩ := h
    by_cases heq : j = i
    · simp [heq]
    · simpa [heq] using hj

theorem LockMove.born (h : LockMove format pid k w w') (hj : w.life j ≠ .unborn) :
    w'.life j ≠ .unborn := by
  rcases k with i | i
  · cases h with
    | start hi =>
      have hne : j ≠ i := fun heq => hj (heq ▸ hi)
      simpa [hne] using hj
    | _ => exact hj
  · obtain ⟨-, rfl⟩ := h
    by_cases heq : j = i
    · simp [heq]
    · simpa [heq] using hj

/-- A process is made live by its own start only. -/
theorem LockMove.live (h : LockMove format pid k w w') (hk : k ≠ .inl j)
    (hj : w'.life j = .live) : w.life j = .live := by
  rcases k with i | i
  · have hne : j ≠ i := fun heq => hk (by rw [heq])
    cases h with
    | start hi => simpa [hne] using hj
    | _ => exact hj
  · obtain ⟨-, rfl⟩ := h
    by_cases heq : j = i
    · simp [heq] at hj
    · simpa [heq] using hj

/-- A guard is taken and dropped by its process only. -/
theorem LockMove.guards (h : LockMove format pid k w w') (hk : k ≠ .inl j) :
    w'.guards j = w.guards j := by
  rcases k with i | i
  · have hne : j ≠ i := fun heq => hk (by rw [heq])
    cases h with
    | take _ _ => exact Function.update_of_ne hne ..
    | drop _ _ _ _ => exact Function.update_of_ne hne ..
    | _ => rfl
  · obtain ⟨-, rfl⟩ := h
    rfl

/-- The file of a live process is not touched by the others. -/
theorem LockMove.file (h : LockMove format pid k w w') (hk : k ≠ .inl j) {f : LockFile ι}
    (hf : w.file = some f) (hcreator : f.creator = j) (hj : w.life j = .live) :
    w'.file = some f := by
  rcases k with i | i
  · have hne : j ≠ i := fun heq => hk (by rw [heq])
    cases h with
    | create _ hnone => simp [hf] at hnone
    | extend hf' hcreator' =>
      obtain rfl := Option.some.inj (hf.symm.trans hf')
      exact absurd (hcreator.symm.trans hcreator') hne
    | remove hf' hdead =>
      obtain rfl := Option.some.inj (hf.symm.trans hf')
      rw [hcreator, hj] at hdead
      cases hdead
    | drop hf' hcreator' =>
      obtain rfl := Option.some.inj (hf.symm.trans hf')
      exact absurd (hcreator.symm.trans hcreator') hne
    | _ => exact hf
  · obtain ⟨-, rfl⟩ := h
    exact hf

theorem LockMove.nextId_le (h : LockMove format pid k w w') : w.nextId ≤ w'.nextId := by
  rcases k with i | i
  · cases h with
    | create _ _ => exact Nat.le_succ _
    | _ => exact Nat.le_refl _
  · obtain ⟨-, rfl⟩ := h
    exact Nat.le_refl _

/-- The file is the one before, or it is new. -/
theorem LockMove.same_file (h : LockMove format pid k w w') {f' : LockFile ι}
    (hf' : w'.file = some f') : f'.id = w.nextId ∨
      ∃ f, w.file = some f ∧ f.id = f'.id ∧ f.creator = f'.creator := by
  rcases k with i | i
  · cases h with
    | create _ _ =>
      cases hf'
      exact .inl rfl
    | extend hf _ _ _ _ =>
      cases hf'
      exact .inr ⟨_, hf, rfl, rfl⟩
    | remove _ _ => cases hf'
    | drop hf _ _ hfile =>
      rcases hfile with rfl | rfl
      · cases hf'
      · cases hf'
        exact .inr ⟨_, hf, rfl, rfl⟩
    | _ => exact .inr ⟨f', hf', rfl, rfl⟩
  · obtain ⟨-, rfl⟩ := h
    exact .inr ⟨f', hf', rfl, rfl⟩

/-- Every step keeps the invariant. -/
theorem LockInv.move (hinv : LockInv format pid w) (h : LockMove format pid k w w') :
    LockInv format pid w' := by
  have hborn (f : LockFile ι) (hf : w.file = some f) : w'.life f.creator ≠ .unborn :=
    h.born (hinv.born f hf)
  have hunborn (j : ι) (hj : w'.life j = .unborn) : w.life j = .unborn :=
    not_imp_not.mp h.born hj
  rcases k with i | i
  · cases h with
    | refl => exact hinv
    | start hi =>
      refine ⟨hinv.fresh, hborn, hinv.text, fun j hj => hinv.unborn j (hunborn j hj), ?_⟩
      intro j n hj hguard
      have hne : j ≠ i := fun heq => by simp [heq, hinv.unborn i hi] at hguard
      exact hinv.guard j n (by simpa [hne] using hj) hguard
    | create hlive hnone =>
      refine ⟨?_, ?_, ?_, hinv.unborn, fun j n hj hguard => ?_⟩
      · rintro f ⟨⟩
        exact Nat.lt_succ_self _
      · rintro f ⟨⟩
        simp [hlive]
      · rintro f ⟨⟩
        exact ⟨0, List.nil_prefix⟩
      · obtain ⟨f, hf, -⟩ := hinv.guard j n hj hguard
        simp [hnone] at hf
    | @extend f hf hcreator text t htext =>
      refine ⟨?_, ?_, ?_, hinv.unborn, fun j n hj hguard => ?_⟩
      · rintro f' ⟨⟩
        exact hinv.fresh f hf
      · rintro f' ⟨⟩
        exact hborn f hf
      · rintro f' ⟨⟩
        exact ⟨t, by rwa [hcreator]⟩
      · obtain ⟨f', hf', hid, hj'⟩ := hinv.guard j n hj hguard
        obtain rfl := Option.some.inj (hf.symm.trans hf')
        exact ⟨_, rfl, hid, hj'⟩
    | @remove f hf hdead =>
      refine ⟨nofun, nofun, nofun, hinv.unborn, fun j n hj hguard => ?_⟩
      obtain ⟨f', hf', -, rfl⟩ := hinv.guard j n hj hguard
      obtain rfl := Option.some.inj (hf.symm.trans hf')
      rw [hdead] at hj
      cases hj
    | @take f hf hcreator =>
      refine ⟨hinv.fresh, hborn, hinv.text, fun j hj => ?_, fun j n hj hguard => ?_⟩
      · have hne : j ≠ i := by
          rintro rfl
          exact hinv.born f hf (hcreator ▸ hj)
        simpa [hne] using hinv.unborn j hj
      · by_cases hji : j = i
        · subst hji
          exact ⟨f, hf, by simpa using hguard, hcreator⟩
        · exact hinv.guard j n hj (by simpa [hji] using hguard)
    | @drop f hf hcreator file hfile =>
      have hsame (f' : LockFile ι) (hf' : file = some f') : w.file = some f' := by
        rcases hfile with rfl | rfl
        · cases hf'
        · exact hf.trans hf'
      refine ⟨fun f' hf' => hinv.fresh f' (hsame f' hf'), fun f' hf' => hinv.born f' (hsame f' hf'),
        fun f' hf' => hinv.text f' (hsame f' hf'), fun j hj => ?_, fun j n hj hguard => ?_⟩
      · by_cases hji : j = i
        · simp [hji]
        · simpa [hji] using hinv.unborn j hj
      · have hji : j ≠ i := fun hji => by simp [hji] at hguard
        obtain ⟨f', hf', -, hj'⟩ := hinv.guard j n hj (by simpa [hji] using hguard)
        obtain rfl := Option.some.inj (hf.symm.trans hf')
        exact absurd (hj'.symm.trans hcreator) hji
  · obtain ⟨hi, rfl⟩ := h
    refine ⟨hinv.fresh, hborn, hinv.text, fun j hj => hinv.unborn j (hunborn j hj), ?_⟩
    intro j n hj hguard
    have hji : j ≠ i := fun hji => by simp [hji] at hj
    exact hinv.guard j n (by simpa [hji] using hj) hguard

omit [DecidableEq ι] in
/-- At most one live process has a guard. -/
theorem LockInv.exclusive (hinv : LockInv format pid w) {n m : ℕ} (hi : w.life i = .live)
    (hj : w.life j = .live) (hn : w.guards i = some n) (hm : w.guards j = some m) : i = j := by
  obtain ⟨f, hf, -, rfl⟩ := hinv.guard i n hi hn
  obtain ⟨f', hf', -, rfl⟩ := hinv.guard j m hj hm
  rw [Option.some.inj (hf.symm.trans hf')]

end Steps

end Maw.Changes
