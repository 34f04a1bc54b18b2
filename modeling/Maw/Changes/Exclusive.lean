import Mathlib.Data.List.TakeWhile
import Maw.Changes.Lock

/-!
# Who holds the lock of the change store

The removal of a stale lock is by path. As long as it removes the file whose record was read, or
a file of another dead process, one process at a time has a guard, in every run of any number of
processes. Two processes that find the same stale lock can both remove it: the second one removes
the lock that the first one has just taken, and both get a guard.

## Main definitions

* `Created`, `HasGuard`, `Seen` — what a process knows between its actions.
* `BreaksDead` — a lock is broken only if its file is the one that was read or of a dead process.

## Main results

* `lock_exclusive` — one process at a time has a guard, and a guard removes its own file.
* `two_breakers_two_guards` — two processes that break one stale lock both get a guard.
-/

open Interleaved

namespace Maw.Changes

variable {ι : Type} [DecidableEq ι]

/-! ### What a process knows -/

section Assertions

variable (format : LockFormat) (pid : ι → ℕ)

/-- The steps of one program of the pool. -/
def LockOwn (k : ι ⊕ ι) (w w' : LockWorld ι) : Prop :=
  LockInv format pid w ∧ LockMove format pid k w w'

/-- The steps of the other programs. -/
def LockRely (k : ι ⊕ ι) (w w' : LockWorld ι) : Prop := ∃ k', k' ≠ k ∧ LockOwn format pid k' w w'

/-- The file is one that the process created, unless the process crashed. -/
def Created (i : ι) (n : ℕ) (Q : List Char → Prop) (w : LockWorld ι) : Prop :=
  LockInv format pid w ∧
    (w.life i = .live → ∃ f, w.file = some f ∧ f.id = n ∧ f.creator = i ∧ Q f.text)

/-- The process has a guard, unless it crashed. -/
def HasGuard (i : ι) (w : LockWorld ι) : Prop :=
  LockInv format pid w ∧ (w.life i = .live → w.guards i ≠ none)

/-- The file, if it is still the one with this id, is of such a creator. -/
def Seen (n : ℕ) (C : LockWorld ι → ι → Prop) (w : LockWorld ι) : Prop :=
  LockInv format pid w ∧ n < w.nextId ∧ ∀ f, w.file = some f → f.id = n → C w f.creator

variable {format pid} {w w' : LockWorld ι} {k : ι ⊕ ι} {i : ι}

theorem stable_lockInv : Stable (LockRely format pid k) (LockInv format pid) := by
  rintro w w' ⟨k', -, hinv, hmove⟩ -
  exact hinv.move hmove

theorem stable_created (n : ℕ) (Q : List Char → Prop) :
    Stable (LockRely format pid (.inl i)) (Created format pid i n Q) := by
  rintro w w' ⟨k', hk, hinv, hmove⟩ ⟨-, hcreated⟩
  refine ⟨hinv.move hmove, fun hlive => ?_⟩
  have hi := hmove.live hk hlive
  obtain ⟨f, hf, hid, hcreator, hQ⟩ := hcreated hi
  exact ⟨f, hmove.file hk hf hcreator hi, hid, hcreator, hQ⟩

theorem stable_hasGuard : Stable (LockRely format pid (.inl i)) (HasGuard format pid i) := by
  rintro w w' ⟨k', hk, hinv, hmove⟩ ⟨-, hguard⟩
  refine ⟨hinv.move hmove, fun hlive => ?_⟩
  rw [hmove.guards hk]
  exact hguard (hmove.live hk hlive)

theorem stable_seen (n : ℕ) {C : LockWorld ι → ι → Prop}
    (hC : ∀ k w w' j, LockMove format pid k w w' → C w j → C w' j) :
    Stable (LockRely format pid k) (Seen format pid n C) := by
  rintro w w' ⟨k', -, hinv, hmove⟩ ⟨-, hn, hseen⟩
  refine ⟨hinv.move hmove, Nat.lt_of_lt_of_le hn hmove.nextId_le, fun f' hf' hid => ?_⟩
  rcases hmove.same_file hf' with hnew | ⟨f, hf, hsame, hcreator⟩
  · exact absurd (hnew.symm.trans hid) (Nat.ne_of_gt hn)
  · rw [← hcreator]
    exact hC _ _ _ _ hmove (hseen f hf (hsame.trans hid))

end Assertions

/-! ### The programs -/

/-- A lock is broken only if its file is the one that was read or of a dead process. -/
def BreaksDead (op : ι × LockAction) (w : LockWorld ι) : Prop :=
  ∀ read, op.2 = .removeStale read → ∀ f, w.file = some f →
    f.id = read ∨ w.life f.creator = .dead

section Triples

variable (format : LockFormat) (pid : ι → ℕ) (linux : Bool) (i : ι)

/-- The actions, where every broken lock is of a dead process. -/
def execSafe (op : ι × LockAction) (w : LockWorld ι) (r : Except LockError (op.2.Ret ι))
    (w' : LockWorld ι) : Prop :=
  LockAction.exec pid linux op w r w' ∧ BreaksDead op w

/-- A triple of the programs of a process. -/
abbrev LockTriple {α : Type} (P : LockWorld ι → Prop) (p : LockProg ι α)
    (R : α → LockWorld ι → Prop) : Prop :=
  Triple (execSafe pid linux) (LockRely format pid (.inl i)) (LockOwn format pid (.inl i)) P p R
    (LockInv format pid)

variable {format pid linux i}

theorem triple_act {a : LockAction} {P : LockWorld ι → Prop} {R : a.Ret ι → LockWorld ι → Prop}
    (ha : a ≠ .start) (hP : Stable (LockRely format pid (.inl i)) P)
    (hinv : ∀ w, P w → LockInv format pid w)
    (hR : ∀ v, Stable (LockRely format pid (.inl i)) (R v))
    (h : ∀ w r w', P w → w.life i = .live → BreaksDead (i, a) w →
      a.execLive pid linux i w r w' → LockStep format pid i w w' ∧ ∀ v, r = .ok v → R v w') :
    LockTriple format pid linux i P (act i a) R := by
  refine triple_attempt hP hR stable_lockInv ?_
  rintro w r w' hw ⟨⟨hstart, -⟩ | ⟨hlive, hexec⟩, hbreaks⟩
  · exact absurd hstart ha
  · obtain ⟨hstep, hok⟩ := h w r w' hw hlive hbreaks hexec
    refine ⟨⟨hinv w hw, hstep⟩, ?_⟩
    rcases r with e | v
    · exact (hinv w hw).move (k := .inl i) hstep
    · exact hok v rfl

/-- Actions that leave the lock and the processes as they are. -/
theorem triple_leaves {a : LockAction} {P : LockWorld ι → Prop} (ha : a ≠ .start)
    (hP : Stable (LockRely format pid (.inl i)) P) (hinv : ∀ w, P w → LockInv format pid w)
    (h : ∀ w r w', a.execLive pid linux i w r w' → w' = w) :
    LockTriple format pid linux i P (act i a) fun _ => P := by
  refine triple_act ha hP hinv (fun _ => hP) fun w r w' hw _ _ hexec => ?_
  obtain rfl := h w r w' hexec
  exact ⟨.refl, fun _ _ => hw⟩

theorem triple_createNew (operation : String) :
    LockTriple format pid linux i (LockInv format pid) (act i (.createNew operation))
      fun o => o.elim (LockInv format pid) fun id => Created format pid i id (· = []) := by
  have hstable (o : Option ℕ) : Stable (LockRely format pid (.inl i))
      (o.elim (LockInv format pid) fun id => Created format pid i id (· = [])) := by
    cases o with
    | none => exact stable_lockInv
    | some id => exact stable_created (i := i) id (· = [])
  refine triple_act nofun stable_lockInv (fun _ h => h) hstable ?_
  rintro w r w' hw hlive - (⟨hnone, rfl, rfl⟩ | ⟨-, rfl, rfl⟩ | ⟨rfl, rfl⟩)
  · have hstep : LockStep format pid i w _ := .create hlive hnone
    refine ⟨hstep, ?_⟩
    rintro v ⟨⟩
    exact ⟨hw.move (k := .inl i) hstep, fun _ => ⟨_, rfl, rfl, rfl, rfl⟩⟩
  · refine ⟨.refl, ?_⟩
    rintro v ⟨⟩
    exact hw
  · exact ⟨.refl, nofun⟩

/-- A call writes some of what is left of the record. -/
theorem triple_write (id t : ℕ) (buf : List Char) :
    LockTriple format pid linux i
      (Created format pid i id fun text => text ++ buf = format.encode ⟨pid i, t⟩)
      (act i (.write id buf)) fun n =>
        Created format pid i id fun text => text ++ buf.drop n = format.encode ⟨pid i, t⟩ := by
  refine triple_act nofun (stable_created id _) (fun _ h => h.1) (fun n => stable_created id _) ?_
  rintro w r w' ⟨hinv, hcreated⟩ hlive - (⟨n, -, rfl, rfl⟩ | ⟨rfl, rfl⟩)
  · obtain ⟨f, hf, rfl, hcreator, htext⟩ := hcreated hlive
    have hrest : f.text ++ buf.take n ++ buf.drop n = format.encode ⟨pid i, t⟩ := by
      rw [List.append_assoc, List.take_append_drop, htext]
    have hstep : LockStep format pid i w { w with file := some { f with text := _ } } :=
      .extend hf hcreator (f.text ++ buf.take n) t ⟨_, hrest⟩
    have hfile : (w.file.map fun g =>
        if g.id = f.id then { g with text := g.text ++ buf.take n } else g) =
          some { f with text := f.text ++ buf.take n } := by
      rw [hf, Option.map_some, if_pos rfl]
    rw [hfile]
    refine ⟨hstep, ?_⟩
    rintro v ⟨⟩
    exact ⟨hinv.move (k := .inl i) hstep, fun _ => ⟨_, rfl, rfl, hcreator, hrest⟩⟩
  · exact ⟨.refl, nofun⟩

theorem triple_writeAll (id t : ℕ) (buf : List Char) :
    LockTriple format pid linux i
      (Created format pid i id fun text => text ++ buf = format.encode ⟨pid i, t⟩)
      (writeAll i id buf) fun _ => Created format pid i id fun _ => True := by
  induction buf using writeAll.induct (ι := ι) id with
  | case1 =>
    rw [writeAll]
    refine triple_pure (stable_created id _) fun w hw => ⟨hw.1, fun hlive => ?_⟩
    obtain ⟨f, hf, hid, hcreator, -⟩ := hw.2 hlive
    exact ⟨f, hf, hid, hcreator, trivial⟩
  | case2 c cs ih =>
    rw [writeAll]
    refine triple_bind stable_lockInv (triple_write id t (c :: cs)) fun n => ?_
    split_ifs with hn
    · exact triple_throw (stable_created id _) fun w hw => hw.1
    · exact ih n hn

theorem triple_takeGuard (id : ℕ) :
    LockTriple format pid linux i (Created format pid i id fun _ => True) (act i (.takeGuard id))
      fun _ => HasGuard format pid i := by
  refine triple_act nofun (stable_created id _) (fun _ h => h.1) (fun _ => stable_hasGuard) ?_
  rintro w r w' ⟨hinv, hcreated⟩ hlive - ⟨rfl, rfl⟩
  obtain ⟨f, hf, rfl, hcreator, -⟩ := hcreated hlive
  have hstep : LockStep format pid i w _ := .take hf hcreator
  refine ⟨hstep, fun v _ => ⟨hinv.move (k := .inl i) hstep, fun _ => ?_⟩⟩
  simp

/-- A process that has created the lock writes its record and has a guard. -/
theorem triple_recordLock (id : ℕ) :
    LockTriple format pid linux i (Created format pid i id (· = [])) (recordLock format pid i id)
      fun _ => HasGuard format pid i := by
  refine triple_bind stable_lockInv (triple_leaves nofun (stable_created id _) (fun _ h => h.1)
    fun w r w' h => h.1) fun now => ?_
  refine triple_bind stable_lockInv ?_ fun _ => triple_bind stable_lockInv
    (triple_leaves nofun (stable_created id _) (fun _ h => h.1) fun w r w' h => h.1) fun _ =>
      triple_bind stable_lockInv (triple_takeGuard id) fun _ =>
        triple_pure stable_hasGuard fun _ h => h
  refine Triple.of_imp (triple_writeAll id now _) (stable_created id _) fun w hw => ?_
  refine ⟨hw.1, fun hlive => ?_⟩
  obtain ⟨f, hf, hid, hcreator, htext⟩ := hw.2 hlive
  have htext : f.text = [] := htext
  exact ⟨f, hf, hid, hcreator, congrArg (· ++ format.encode ⟨pid i, now⟩) htext⟩

/-- The record that is read is of the creator of the file. -/
theorem triple_readToString :
    LockTriple format pid linux i (LockInv format pid) (act i .readToString)
      fun o => o.elim (LockInv format pid) fun file => Seen format pid file.id fun _ j =>
        ∀ record, format.parse file.text = some record → pid j = record.pid := by
  have hstable (o : Option (LockFile ι)) : Stable (LockRely format pid (.inl i))
      (o.elim (LockInv format pid) fun file => Seen format pid file.id fun _ j =>
        ∀ record, format.parse file.text = some record → pid j = record.pid) := by
    cases o with
    | none => exact stable_lockInv
    | some file =>
      exact stable_seen (C := fun _ j => ∀ record, format.parse file.text = some record →
        pid j = record.pid) file.id fun _ _ _ _ _ h => h
  refine triple_act nofun stable_lockInv (fun _ h => h) hstable ?_
  rintro w r w' hw - - ⟨rfl, hr⟩
  refine ⟨.refl, fun v hv => ?_⟩
  obtain rfl : v = w'.file := by
    rcases hr with rfl | rfl
    · exact (Except.ok.inj hv).symm
    · cases hv
  cases hfile : w'.file with
  | none => exact hw
  | some file =>
    refine ⟨hw, hw.fresh file hfile, fun f hf hid record hparse => ?_⟩
    obtain rfl := Option.some.inj (hfile.symm.trans hf)
    obtain ⟨t, htext⟩ := hw.text _ hfile
    exact (format.pid_of_parse _ _ record htext hparse).symm

/-- A process that does not run any more is dead: it has run. -/
theorem triple_pidIsAlive (read n : ℕ) :
    LockTriple format pid linux i (Seen format pid read fun _ j => pid j = n)
      (act i (.pidIsAlive n)) fun alive => bif alive then LockInv format pid
        else Seen format pid read fun w j => w.life j = .dead := by
  have hstable (alive : Bool) : Stable (LockRely format pid (.inl i))
      (bif alive then LockInv format pid
        else Seen format pid read fun w j => w.life j = .dead) := by
    cases alive with
    | false =>
      exact stable_seen (C := fun w j => w.life j = .dead) read fun _ _ _ _ hmove => hmove.dead
    | true => exact stable_lockInv
  refine triple_act nofun (stable_seen _ fun _ _ _ _ _ h => h) (fun _ h => h.1) hstable ?_
  rintro w r w' ⟨hinv, hread, hseen⟩ - - ⟨rfl, rfl | ⟨rfl, -, hdead⟩⟩
  · refine ⟨.refl, ?_⟩
    rintro v ⟨⟩
    exact hinv
  · refine ⟨.refl, ?_⟩
    rintro v ⟨⟩
    refine ⟨hinv, hread, fun f hf hid => ?_⟩
    have hlive := hdead f.creator (hseen f hf hid)
    have hborn := hinv.born f hf
    cases hlife : w'.life f.creator with
    | unborn => exact absurd hlife hborn
    | live => exact absurd hlife hlive
    | dead => exact hlife

theorem triple_removeStale (read : ℕ) :
    LockTriple format pid linux i (Seen format pid read fun w j => w.life j = .dead)
      (act i (.removeStale read)) fun _ => LockInv format pid := by
  refine triple_act nofun (stable_seen _ fun _ _ _ _ hmove => hmove.dead) (fun _ h => h.1)
    (fun _ => stable_lockInv) ?_
  rintro w r w' ⟨hinv, -, hseen⟩ - hbreaks (⟨hsome, rfl, rfl⟩ | ⟨rfl, rfl⟩)
  · obtain ⟨f, hf⟩ := Option.ne_none_iff_exists'.mp hsome
    have hdead : w.life f.creator = .dead := (hbreaks read rfl f hf).elim (hseen f hf) id
    have hstep : LockStep format pid i w _ := .remove hf hdead
    exact ⟨hstep, fun _ _ => hinv.move (k := .inl i) hstep⟩
  · exact ⟨.refl, nofun⟩

/-- A stale lock that is broken is of a dead process. -/
theorem triple_tryBreakStaleLock :
    LockTriple format pid linux i (LockInv format pid) (tryBreakStaleLock format i)
      fun _ => LockInv format pid := by
  refine triple_bind stable_lockInv triple_readToString ?_
  rintro (_ | file)
  · exact triple_pure stable_lockInv fun _ h => h
  simp only [Option.elim_some]
  cases hparse : format.parse file.text with
  | none => exact triple_pure (stable_seen _ fun _ _ _ _ _ h => h) fun _ h => h.1
  | some record =>
    have hseen : Stable (LockRely format pid (.inl i))
        (Seen format pid file.id fun _ j => pid j = record.pid) :=
      stable_seen _ fun _ _ _ _ _ h => h
    refine Triple.of_imp (P := Seen format pid file.id fun _ j => pid j = record.pid) ?_
      (stable_seen _ fun _ _ _ _ _ h => h)
      fun w hw => ⟨hw.1, hw.2.1, fun f hf hid => hw.2.2 f hf hid record rfl⟩
    refine triple_bind stable_lockInv (triple_leaves nofun hseen (fun _ h => h.1)
      fun w r w' h => h.1) fun now => ?_
    split_ifs
    · exact triple_pure hseen fun _ h => h.1
    · refine triple_bind stable_lockInv (triple_pidIsAlive file.id record.pid) ?_
      rintro (_ | _)
      · refine triple_bind stable_lockInv (triple_removeStale file.id) fun _ => ?_
        exact triple_pure stable_lockInv fun _ h => h
      · exact triple_pure stable_lockInv fun _ h => h

theorem triple_lockLoop (operation : String) (turns : ℕ) :
    LockTriple format pid linux i (LockInv format pid) (lockLoop format pid i operation turns)
      fun _ => HasGuard format pid i := by
  induction turns with
  | zero => exact triple_throw stable_lockInv fun _ h => h
  | succ turns ih =>
    refine triple_bind stable_lockInv (triple_createNew operation) ?_
    rintro (_ | id)
    · refine triple_bind stable_lockInv triple_tryBreakStaleLock fun broken => ?_
      split_ifs
      · exact ih
      · refine triple_bind stable_lockInv (triple_leaves nofun stable_lockInv (fun _ h => h)
          fun w r w' h => h.1) fun elapsed => ?_
        split_ifs
        · exact triple_throw stable_lockInv fun _ h => h
        · exact ih
    · exact triple_recordLock id

theorem triple_dropGuard :
    LockTriple format pid linux i (HasGuard format pid i) (act i .dropGuard)
      fun _ => LockInv format pid := by
  refine triple_act nofun stable_hasGuard (fun _ h => h.1) (fun _ => stable_lockInv) ?_
  rintro w r w' ⟨hinv, -⟩ hlive - ⟨rfl, hguard, hw'⟩
  obtain ⟨n, hn⟩ := Option.ne_none_iff_exists'.mp hguard
  obtain ⟨f, hf, -, hcreator⟩ := hinv.guard i n hlive hn
  have hstep : LockStep format pid i w w' := by
    rcases hw' with rfl | rfl
    · exact .drop hf hcreator none (.inl rfl)
    · exact .drop hf hcreator w.file (.inr hf)
  exact ⟨hstep, fun _ _ => hinv.move (k := .inl i) hstep⟩

theorem triple_withLock (operation : String) (turns : ℕ) :
    LockTriple format pid linux i (LockInv format pid) (withLock format pid i operation turns)
      fun _ => LockInv format pid := by
  refine triple_bind stable_lockInv ?_ fun _ => triple_dropGuard
  refine triple_bind stable_lockInv ?_ fun _ => triple_lockLoop operation turns
  exact triple_leaves nofun stable_lockInv (fun _ h => h) fun w r w' h => h.1

theorem triple_sessions (uses : List (String × ℕ)) :
    LockTriple format pid linux i (LockInv format pid) (sessions format pid i uses)
      fun _ => LockInv format pid := by
  induction uses with
  | nil => exact triple_pure stable_lockInv fun _ h => h
  | cons use uses ih =>
    refine triple_bind stable_lockInv (triple_ignoreError stable_lockInv ?_) fun _ => ih
    refine Meets.imp (triple_withLock use.1 use.2) ?_
    rintro (e | u) w hw
    · exact hw
    · exact hw

theorem triple_process (uses : List (String × ℕ)) :
    LockTriple format pid linux i (LockInv format pid) (process format pid i uses)
      fun _ => LockInv format pid := by
  refine triple_bind (R := fun _ => LockInv format pid) stable_lockInv ?_ fun _ =>
    triple_sessions uses
  refine triple_attempt stable_lockInv (fun _ => stable_lockInv) stable_lockInv ?_
  rintro w r w' hinv ⟨⟨-, hunborn, ⟨u, rfl⟩, rfl⟩ | ⟨-, hfalse⟩, -⟩
  · have hstep : LockStep format pid i w _ := .start hunborn
    exact ⟨⟨hinv, hstep⟩, hinv.move (k := .inl i) hstep⟩
  · exact hfalse.elim

theorem meets_crash :
    Meets (execSafe pid linux) (LockRely format pid (.inr i)) (LockOwn format pid (.inr i))
      (fun _ => LockInv format pid) (act i .crash).run (LockInv format pid) := by
  refine meets_call stable_lockInv (fun _ => LockInv format pid) ?_ ?_
  · rintro w r w' hinv ⟨⟨hstart, -⟩ | ⟨hlive, -, rfl⟩, -⟩
    · cases hstart
    · have hmove : LockMove format pid (.inr i) w _ := ⟨hlive, rfl⟩
      exact ⟨⟨hinv, hmove⟩, hinv.move hmove⟩
  · rintro (e | u)
    · exact meets_done stable_lockInv fun _ h => h
    · exact meets_done stable_lockInv fun _ h => h

end Triples

/-! ### Runs -/

/-- If every lock that is broken is of a dead process, or the one whose record was read, then at
most one live process has a guard at a time, and a guard that is dropped removes its own file
only. -/
theorem lock_exclusive (format : LockFormat) (pid : ι → ℕ) (linux : Bool)
    (uses : ι → List (String × ℕ)) {events : List (Event (ι ⊕ ι) (ι × LockAction) (LockWorld ι))}
    {pool : Pool (ι × LockAction) (fun op => Except LockError (op.2.Ret ι))
      (fun _ : ι ⊕ ι => Except LockError Unit) (LockWorld ι)}
    (h : Run (LockAction.exec pid linux) (lockPool format pid uses) events pool)
    (hbreaks : ∀ e ∈ events, BreaksDead e.op e.before) :
    (∀ i j n m, pool.state.life i = .live → pool.state.life j = .live →
        pool.state.guards i = some n → pool.state.guards j = some m → i = j) ∧
      ∀ e ∈ events, e.op.2 = .dropGuard → ∀ f, e.before.file = some f → e.after.file = none →
        f.creator = e.op.1 ∧ e.before.guards e.op.1 = some f.id := by
  have hsafe := Run.restrict_iff (C := fun op w _ => BreaksDead op w).mpr ⟨h, hbreaks⟩
  have hinv₀ : LockInv format pid (lockPool format pid uses).state :=
    ⟨nofun, nofun, nofun, fun _ _ => rfl, fun _ _ hlive => by cases hlive⟩
  have hown : ∀ k k', k' ≠ k → ∀ w w', LockOwn format pid k w w' → LockRely format pid k' w w' :=
    fun k k' hk w w' hown => ⟨k, hk.symm, hown⟩
  have hprogs (k : ι ⊕ ι) : ∃ P, P (lockPool format pid uses).state ∧
      Meets (fun op w r w' => LockAction.exec pid linux op w r w' ∧ BreaksDead op w)
        (LockRely format pid k) (LockOwn format pid k) (fun _ => LockInv format pid)
        ((lockPool format pid uses).progs k) P := by
    obtain i | i := k
    · refine ⟨LockInv format pid, hinv₀, Meets.imp (triple_process (uses i)) ?_⟩
      rintro (e | u) w hw
      · exact hw
      · exact hw
    · exact ⟨LockInv format pid, hinv₀, meets_crash⟩
  have hevents := (hsafe.meets hown hprogs).2
  have hinv : LockInv format pid pool.state :=
    hsafe.induction (T := fun w w' => LockInv format pid w → LockInv format pid w')
      (fun _ h => h) (fun _ _ _ h h' hw => h' (h hw))
      (fun e he hw => hw.move (hevents e he).2) hinv₀
  refine ⟨fun i j n m hi hj hn hm => hinv.exclusive hi hj hn hm, ?_⟩
  intro e he hop f hf hgone
  have hbefore : LockInv format pid e.before := (hevents e he).1
  obtain ⟨r, hexec⟩ := h.exec_of_mem he
  obtain ⟨who, ⟨i, a⟩, before, after⟩ := e
  obtain rfl : a = .dropGuard := hop
  rcases hexec with ⟨hstart, -⟩ | ⟨hlive, -, hguard, -⟩
  · cases hstart
  · obtain ⟨n, hn⟩ := Option.ne_none_iff_exists'.mp hguard
    obtain ⟨f', hf', rfl, hcreator⟩ := hbefore.guard i n hlive hn
    obtain rfl := Option.some.inj (hf.symm.trans hf')
    exact ⟨hcreator, hn⟩

/-! ### Two processes that break one stale lock -/

section Breakers

/-- What follows a key at the beginning of a text. -/
def afterKey (key text : List Char) : Option (List Char) :=
  if key <+: text then some (text.drop key.length) else none

theorem afterKey_eq_some {key text rest : List Char} (h : afterKey key text = some rest) :
    text = key ++ rest := by
  unfold afterKey at h
  split_ifs at h with hkey
  obtain ⟨tail, rfl⟩ := hkey
  rw [List.drop_left] at h
  rw [Option.some.inj h]

def pidKey : List Char := "pid = ".toList

def createdKey : List Char := "\ncreated_unix_secs = ".toList

def encodeRecord (record : LockRecord) : List Char :=
  pidKey ++ Nat.toDigits 10 record.pid ++ createdKey ++
    Nat.toDigits 10 record.createdUnixSecs ++ ['\n']

/-- Read the two lines of a record; the last line may lack its end. -/
def parseRecord (text : List Char) : Option LockRecord := do
  let rest ← afterKey pidKey text
  let rest' ← afterKey createdKey (rest.dropWhile Char.isDigit)
  let pid := rest.takeWhile Char.isDigit
  let created := rest'.takeWhile Char.isDigit
  if pid = [] ∨ created = [] ∨ rest'.dropWhile Char.isDigit ∉ [[], ['\n']] then none
  else some ⟨Nat.ofDigitChars 10 pid 0, Nat.ofDigitChars 10 created 0⟩

/-- A text begins with one run of digits only. -/
theorem digits_unique {ds ds' rest rest' : List Char} (hds : ∀ c ∈ ds, c.isDigit)
    (hds' : ∀ c ∈ ds', c.isDigit) (h : ds ++ '\n' :: rest = ds' ++ '\n' :: rest') : ds = ds' := by
  have htake (l rest : List Char) (hl : ∀ c ∈ l, c.isDigit) :
      (l ++ '\n' :: rest).takeWhile Char.isDigit = l := by
    rw [List.takeWhile_append_of_pos hl, List.takeWhile_cons_of_neg (by decide), List.append_nil]
  rw [← htake ds rest hds, h, htake ds' rest' hds']

theorem pid_of_parseRecord (record : LockRecord) (text : List Char) (record' : LockRecord)
    (htext : text <+: encodeRecord record) (hparse : parseRecord text = some record') :
    record'.pid = record.pid := by
  simp only [parseRecord, Option.bind_eq_bind, Option.bind_eq_some_iff] at hparse
  obtain ⟨rest, hrest, rest', hrest', hparse⟩ := hparse
  split_ifs at hparse
  obtain rfl := Option.some.inj hparse
  obtain ⟨tail, htail⟩ := htext
  have hsplit : rest = rest.takeWhile Char.isDigit ++ (createdKey ++ rest') := by
    rw [← afterKey_eq_some hrest', List.takeWhile_append_dropWhile]
  rw [afterKey_eq_some hrest, hsplit, encodeRecord] at htail
  simp only [List.append_assoc, List.append_cancel_left_eq] at htail
  have hdigits : rest.takeWhile Char.isDigit = Nat.toDigits 10 record.pid := by
    refine digits_unique (fun c hc => ?_) (fun c hc => ?_) htail
    · exact List.mem_takeWhile_imp hc
    · exact Nat.isDigit_of_mem_toDigits (by decide) (by decide) hc
  show Nat.ofDigitChars 10 (rest.takeWhile Char.isDigit) 0 = record.pid
  rw [hdigits, Nat.ofDigitChars_toDigits (by decide) (by decide)]

/-- The format of the records. -/
def recordFormat : LockFormat := ⟨encodeRecord, parseRecord, pid_of_parseRecord⟩

variable {format : LockFormat} {pid : ι → ℕ} {i : ι} {w : LockWorld ι}
  {E : (op : ι × LockAction) → LockWorld ι → Except LockError (op.2.Ret ι) → LockWorld ι → Prop}

/-- The process has created the lock, written its record and got its guard. -/
def LockWorld.locked (format : LockFormat) (pid : ι → ℕ) (i : ι) (now : ℕ) (w : LockWorld ι) :
    LockWorld ι where
  file := some ⟨w.nextId, i, format.encode ⟨pid i, now⟩⟩
  nextId := w.nextId + 1
  life := w.life
  guards := Function.update w.guards i (some w.nextId)

/-- All actions are allowed but for the removal of a stale lock, which may not be. -/
def AllowsOthers (pid : ι → ℕ) (E : (op : ι × LockAction) → LockWorld ι →
    Except LockError (op.2.Ret ι) → LockWorld ι → Prop) : Prop :=
  ∀ op w r w', (∀ read, op.2 ≠ .removeStale read) → LockAction.exec pid true op w r w' →
    E op w r w'

theorem returns_act (hE : AllowsOthers pid E) (hlive : w.life i = .live) {a : LockAction}
    {v : a.Ret ι} {w' : LockWorld ι} (ha : ∀ read, a ≠ .removeStale read)
    (h : a.execLive pid true i w (.ok v) w') : Returns E (act i a) w v w' :=
  returns_attempt.mpr (hE _ _ _ _ ha (.inr ⟨hlive, h⟩))

/-- One call may write all that is left of a text. -/
theorem returns_writeAll (hE : AllowsOthers pid E) (hlive : w.life i = .live) {f : LockFile ι}
    (hf : w.file = some f) (buf : List Char) : Returns E (writeAll i f.id buf) w ⟨⟩
      { w with file := some { f with text := f.text ++ buf } } := by
  cases buf with
  | nil =>
    rw [writeAll, returns_pure, List.append_nil, ← hf]
    exact ⟨rfl, rfl⟩
  | cons c cs =>
    rw [writeAll, returns_bind]
    refine ⟨(c :: cs).length, { w with file := some { f with text := f.text ++ c :: cs } }, ?_, ?_⟩
    · refine returns_act hE hlive (fun read h => by cases h) (.inl ⟨_, Nat.le_refl _, rfl, ?_⟩)
      rw [hf, Option.map_some, if_pos rfl, List.take_length]
    · rw [dif_neg (by simp), List.drop_length, writeAll, returns_pure]
      exact ⟨rfl, rfl⟩

/-- A process that finds no lock may get it. -/
theorem returns_lockLoop (hE : AllowsOthers pid E) (hlive : w.life i = .live)
    (hnone : w.file = none) (now : ℕ) (operation : String) (turns : ℕ) :
    Returns E (lockLoop format pid i operation (turns + 1)) w w.nextId
      (w.locked format pid i now) := by
  let created : LockWorld ι :=
    { w with file := some ⟨w.nextId, i, []⟩, nextId := w.nextId + 1 }
  have hcreate : Returns E (act i (.createNew operation)) w (some w.nextId) created :=
    returns_act hE hlive nofun (.inl ⟨hnone, rfl, rfl⟩)
  have hnow : Returns E (act i .now) created now created :=
    returns_act (w := created) (a := .now) hE hlive nofun ⟨rfl, now, rfl⟩
  let written : LockWorld ι :=
    { created with file := some ⟨w.nextId, i, format.encode ⟨pid i, now⟩⟩ }
  have hwrite : Returns E (writeAll i w.nextId (format.encode ⟨pid i, now⟩)) created ⟨⟩ written :=
    returns_writeAll (w := created) hE hlive rfl _
  have hsync : Returns E (act i (.syncAll w.nextId)) written ⟨⟩ written :=
    returns_act (w := written) (a := .syncAll _) hE hlive nofun ⟨rfl, .inl rfl⟩
  have htake : Returns E (act i (.takeGuard w.nextId)) written ⟨⟩ (w.locked format pid i now) :=
    returns_act (w := written) (a := .takeGuard _) hE hlive nofun ⟨rfl, rfl⟩
  exact hcreate.bind_runs (hnow.bind_runs (hwrite.bind_runs (hsync.bind_runs
    (htake.bind_runs (.refl _ _)))))

/-- A process that finds the lock of a dead process comes to remove it. -/
theorem runs_tryBreakStaleLock (hE : AllowsOthers pid E) (hlive : w.life i = .live)
    {f : LockFile ι} (hf : w.file = some f) {record : LockRecord}
    (hparse : format.parse f.text = some record)
    (hdead : ∀ j, pid j = record.pid → w.life j ≠ .live) (now : ℕ)
    (hage : lockStaleAfter ≤ now - record.createdUnixSecs) :
    Prog.Runs E (tryBreakStaleLock format i).run w
      (do act i (.removeStale f.id); return true : LockProg ι Bool).run w := by
  have hread : Returns E (act i .readToString) w (some f) w :=
    returns_act (a := .readToString) hE hlive nofun ⟨rfl, .inl (by rw [hf])⟩
  refine hread.bind_runs ?_
  simp only [hparse]
  refine (returns_act (a := .now) hE hlive nofun ⟨rfl, now, rfl⟩).bind_runs ?_
  rw [if_neg (Nat.not_lt.mpr hage)]
  exact (returns_act (a := .pidIsAlive _) (v := false) hE hlive nofun
    ⟨rfl, .inr ⟨rfl, rfl, hdead⟩⟩).bind_runs (.refl _ _)

/-- A process that found the lock of a dead process removes the lock that is there when it comes
to it, and gets its own one. -/
theorem runs_break (format : LockFormat) (hE : AllowsOthers pid E) (hlive : w.life i = .live)
    {f : LockFile ι} (hf : w.file = some f) {record : LockRecord}
    (hparse : format.parse f.text = some record)
    (hdead : ∀ j, pid j = record.pid → w.life j ≠ .live) (now : ℕ)
    (hage : lockStaleAfter ≤ now - record.createdUnixSecs) (operation : String) :
    ∃ q, Prog.Runs E (lockLoop format pid i operation 2).run w q w ∧
      ∀ w', w'.life i = .live → E (i, .removeStale f.id) w' (.ok ⟨⟩) { w' with file := none } →
        Prog.Runs E q w' (.done (.ok w'.nextId)) (w'.locked format pid i now) := by
  have hsome : w.file ≠ none := by simp [hf]
  have hcreate : Returns E (act i (.createNew operation)) w none w :=
    returns_act hE hlive nofun (.inr (.inl ⟨hsome, rfl, rfl⟩))
  have hbreak := runs_tryBreakStaleLock hE hlive hf hparse hdead now hage
  refine ⟨_, hcreate.bind_runs (hbreak.bind_left (ExceptT.bindCont _)), ?_⟩
  intro w' hlive' hremove
  have hremove : Returns E (act i (.removeStale f.id)) w' ⟨⟩ { w' with file := none } :=
    returns_attempt.mpr hremove
  refine (Prog.Runs.bind_left (hremove.bind_runs (.refl _ _)) (ExceptT.bindCont _)).trans ?_
  exact returns_lockLoop (w := { w' with file := none }) hE hlive' rfl now operation 0

/-- A process within its one use of the lock. -/
def within (format : LockFormat) (pid : ι → ℕ) (i : ι)
    (q : Prog (ι × LockAction) (fun op => Except LockError (op.2.Ret ι)) (Except LockError ℕ)) :
    Prog (ι × LockAction) (fun op => Except LockError (op.2.Ret ι)) (Except LockError Unit) :=
  (ignoreError (ExceptT.mk q >>= fun _ => act i .dropGuard) >>= fun _ =>
    sessions format pid i []).run

omit [DecidableEq ι] in
theorem runs_within {q q' : Prog (ι × LockAction) (fun op => Except LockError (op.2.Ret ι))
    (Except LockError ℕ)} {w' : LockWorld ι} (h : Prog.Runs E q w q' w') :
    Prog.Runs E (within format pid i q) w (within format pid i q') w' :=
  ((h.bind_left (ExceptT.bindCont fun _ => act i .dropGuard)).bind_left
    fun _ => .done (Except.ok (ε := LockError) PUnit.unit)).bind_left (ExceptT.bindCont fun _ => sessions format pid i [])

/-- A process starts and comes to the loop. -/
theorem runs_start (format : LockFormat) (hE : AllowsOthers pid E) (hunborn : w.life i = .unborn)
    (operation : String) (turns : ℕ) :
    Prog.Runs E (process format pid i [(operation, turns)]).run w
      (within format pid i (lockLoop format pid i operation turns).run)
      { w with life := Function.update w.life i .live } := by
  let started : LockWorld ι := { w with life := Function.update w.life i .live }
  have hlive : started.life i = .live := Function.update_self ..
  have hcreateDir : Returns E (act i .createDirAll) started ⟨⟩ started :=
    returns_act (w := started) (a := .createDirAll) hE hlive nofun ⟨rfl, .inl rfl⟩
  refine .step (r := .ok ⟨⟩) (hE _ _ _ _ nofun (.inl ⟨rfl, hunborn, ⟨_, rfl⟩, rfl⟩)) ?_
  show Prog.Runs E (within format pid i (acquireLock format pid i operation turns).run) started _
    started
  exact runs_within (hcreateDir.bind_runs (.refl _ _))

def samplePid (i : Fin 3) : ℕ := 10 + i

def sampleUses (_ : Fin 3) : List (String × ℕ) := [("changes close", 2)]

/-- A process takes the lock and crashes; two others find it and are about to remove it. -/
theorem exists_run_breakers {E : (op : Fin 3 × LockAction) → LockWorld (Fin 3) →
    Except LockError (op.2.Ret (Fin 3)) → LockWorld (Fin 3) → Prop}
    (hE : AllowsOthers samplePid E) : ∃ events pool q₁ q₂,
      Run E (lockPool recordFormat samplePid sampleUses) events pool ∧
      pool.progs (.inl 1) = within recordFormat samplePid 1 q₁ ∧
      pool.progs (.inl 2) = within recordFormat samplePid 2 q₂ ∧
      pool.state.nextId = 1 ∧ (∃ f, pool.state.file = some f ∧ f.id = 0) ∧
      pool.state.life 1 = .live ∧ pool.state.life 2 = .live ∧
      (∀ w', w'.life 1 = .live → E (1, .removeStale 0) w' (.ok ⟨⟩) { w' with file := none } →
        Prog.Runs E q₁ w' (.done (.ok w'.nextId)) (w'.locked recordFormat samplePid 1 60)) ∧
      ∀ w', w'.life 2 = .live → E (2, .removeStale 0) w' (.ok ⟨⟩) { w' with file := none } →
        Prog.Runs E q₂ w' (.done (.ok w'.nextId)) (w'.locked recordFormat samplePid 2 60) := by
  let w₀ : LockWorld (Fin 3) := (lockPool recordFormat samplePid sampleUses).state
  let w₁ : LockWorld (Fin 3) := { w₀ with life := Function.update w₀.life 0 .live }
  let w₂ := w₁.locked recordFormat samplePid 0 0
  let w₃ : LockWorld (Fin 3) := { w₂ with life := Function.update w₂.life 0 .dead }
  let w₄ : LockWorld (Fin 3) := { w₃ with life := Function.update w₃.life 1 .live }
  let w₅ : LockWorld (Fin 3) := { w₄ with life := Function.update w₄.life 2 .live }
  have hparse : recordFormat.parse (recordFormat.encode ⟨10, 0⟩) = some ⟨10, 0⟩ := by decide
  have hlock := (runs_start recordFormat (w := w₀) hE rfl "changes close" 2).trans
    (runs_within (returns_lockLoop (w := w₁) hE rfl rfl 0 "changes close" 1))
  have hnil : Run E (lockPool recordFormat samplePid sampleUses) []
      (lockPool recordFormat samplePid sampleUses) := .nil
  obtain ⟨events₀, hrun⟩ := hnil.runs (i := .inl 0) hlock
  have hcrash := hrun.step (i := .inr 0) (s := w₃) rfl
    (hE (0, .crash) w₂ (.ok ⟨⟩) w₃ nofun (.inr ⟨rfl, rfl, rfl⟩))
  have hdead (w : LockWorld (Fin 3)) (hw : w.life 0 = .dead) (j : Fin 3) (hj : samplePid j = 10) :
      w.life j ≠ .live := by
    obtain rfl : j = 0 := Fin.ext (by simpa [samplePid] using hj)
    simp [hw]
  obtain ⟨q₁, hq₁, hgo₁⟩ := runs_break recordFormat (i := 1) (w := w₄) hE rfl rfl hparse
    (hdead w₄ rfl) 60 (by decide) "changes close"
  obtain ⟨events₁, hrun₁⟩ := hcrash.runs (i := .inl 1)
    ((runs_start recordFormat (w := w₃) hE rfl "changes close" 2).trans (runs_within hq₁))
  obtain ⟨q₂, hq₂, hgo₂⟩ := runs_break recordFormat (i := 2) (w := w₅) hE rfl rfl hparse
    (hdead w₅ rfl) 60 (by decide) "changes close"
  obtain ⟨events₂, hrun₂⟩ := hrun₁.runs (i := .inl 2)
    ((runs_start recordFormat (w := w₄) hE rfl "changes close" 2).trans (runs_within hq₂))
  exact ⟨_, _, q₁, q₂, hrun₂, rfl, rfl, rfl, ⟨_, rfl, rfl⟩, rfl, rfl, hgo₁, hgo₂⟩

/-- One of them breaks the lock and has a guard, which no other process has. -/
theorem lock_exclusive_breaker : ∃ events pool,
    Run (LockAction.exec samplePid true) (lockPool recordFormat samplePid sampleUses) events pool ∧
      pool.state.life 1 = .live ∧ pool.state.guards 1 = some 1 ∧
        ∀ j m, pool.state.life j = .live → pool.state.guards j = some m → 1 = j := by
  have hE : AllowsOthers samplePid fun op w r w' =>
      LockAction.exec samplePid true op w r w' ∧ BreaksDead op w :=
    fun op w r w' hop h => ⟨h, fun read hread => absurd hread (hop read)⟩
  obtain ⟨events, pool, q₁, q₂, hrun, hq₁, -, hnext, ⟨f, hf, hid⟩, hlive, -, hgo, -⟩ :=
    exists_run_breakers hE
  have hremove : LockAction.exec samplePid true (1, .removeStale 0) pool.state (.ok ⟨⟩)
      { pool.state with file := none } := .inr ⟨hlive, .inl ⟨by simp [hf], rfl, rfl⟩⟩
  have hbreaks : BreaksDead (1, .removeStale 0) pool.state := by
    rintro read ⟨⟩ f' hf'
    obtain rfl := Option.some.inj (hf.symm.trans hf')
    exact .inl hid
  obtain ⟨events₁, hrun₁⟩ := hrun.runs (i := .inl 1) (by
    rw [hq₁]
    exact runs_within (hgo _ hlive ⟨hremove, hbreaks⟩))
  obtain ⟨hexec, hall⟩ := Run.restrict_iff (C := fun op w _ => BreaksDead op w).mp hrun₁
  have hguard : (pool.state.locked recordFormat samplePid 1 60).guards 1 = some 1 := by
    simp [LockWorld.locked, hnext]
  refine ⟨_, _, hexec, hlive, hguard, fun j m hj hm => ?_⟩
  exact (lock_exclusive recordFormat samplePid true sampleUses hexec hall).1 1 j 1 m hlive hj
    hguard hm

/-- Both of them break the lock, and both have a guard. -/
theorem two_breakers_two_guards : ∃ events pool,
    Run (LockAction.exec samplePid true) (lockPool recordFormat samplePid sampleUses) events pool ∧
      pool.state.life 1 = .live ∧ pool.state.guards 1 = some 1 ∧
        pool.state.life 2 = .live ∧ pool.state.guards 2 = some 2 := by
  obtain ⟨events, pool, q₁, q₂, hrun, hq₁, hq₂, hnext, ⟨f, hf, -⟩, hlive₁, hlive₂, hgo₁, hgo₂⟩ :=
    exists_run_breakers (E := LockAction.exec samplePid true) fun _ _ _ _ _ h => h
  have hremove : LockAction.exec samplePid true (1, .removeStale 0) pool.state (.ok ⟨⟩)
      { pool.state with file := none } := .inr ⟨hlive₁, .inl ⟨by simp [hf], rfl, rfl⟩⟩
  obtain ⟨events₁, hrun₁⟩ := hrun.runs (i := .inl 1) (by
    rw [hq₁]
    exact runs_within (hgo₁ _ hlive₁ hremove))
  -- The second process removes the lock that the first one has taken.
  let taken := pool.state.locked recordFormat samplePid 1 60
  have hremove₂ : LockAction.exec samplePid true (2, .removeStale 0) taken (.ok ⟨⟩)
      { taken with file := none } := .inr ⟨hlive₂, .inl ⟨nofun, rfl, rfl⟩⟩
  obtain ⟨events₂, hrun₂⟩ := hrun₁.runs (i := .inl 2) (by
    rw [Pool.advance_of_ne _ (by decide), hq₂]
    exact runs_within (hgo₂ taken hlive₂ hremove₂))
  refine ⟨_, _, hrun₂, hlive₁, ?_, hlive₂, ?_⟩
  · show (taken.locked recordFormat samplePid 2 60).guards 1 = some 1
    simp [taken, LockWorld.locked, hnext]
  · show (taken.locked recordFormat samplePid 2 60).guards 2 = some 2
    simp [taken, LockWorld.locked, hnext]

end Breakers

end Maw.Changes
