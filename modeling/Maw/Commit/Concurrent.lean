import Maw.Commit.CommitPhase
import Maw.Core.Repo

/-!
# Concurrent commits and their recovery

Several merges of one epoch commit at the same time, each to its own candidate, and each can be
recovered any number of times. Every program may be interrupted for good after any of its
operations. Whatever the order of the operations, at most one merge commits, no ref goes back to
the epoch before, and recovery says what the refs are.

## Main definitions

* `Rivals` — the merges; `Rivals.pool` — their commits and recoveries.
* `Rivals.MovesRefs` — what a program may do to the refs.

## Main results

* `Rivals.commit_concurrent` — commits are atomic, and recoverable.
* `Rivals.recover_idempotent` — a second recovery does nothing.
-/

open Interleaved

namespace Maw

/-- One merge that commits. -/
structure CommitAttempt where
  branch : String
  branchBefore : GitOid
  candidate : GitOid

/-- The merges of one epoch. A candidate is a commit of its own on top of the epoch. -/
structure Rivals (ι : Type) where
  epochBefore : GitOid
  attempt : ι → CommitAttempt
  candidate_injective : Function.Injective fun i => (attempt i).candidate
  candidate_ne : ∀ i, (attempt i).candidate ≠ epochBefore

/-- A commit, or one of the recoveries of a merge. -/
inductive CommitCall (ι : Type)
  | commit (i : ι)
  | recover (i : ι) (n : Nat)
  deriving DecidableEq

namespace CommitCall

variable {ι : Type}

/-- What a call returns. -/
abbrev Result : CommitCall ι → Type
  | commit _ => Except CommitError CommitResult
  | recover _ _ => Except CommitError CommitRecovery

end CommitCall

namespace Rivals

variable {ι : Type} (rivals : Rivals ι)

def edits (i : ι) : List RefEdit :=
  [⟨epochCurrent, rivals.epochBefore, (rivals.attempt i).candidate⟩,
    ⟨branchRef (rivals.attempt i).branch, (rivals.attempt i).branchBefore,
      (rivals.attempt i).candidate⟩]

/-- The program of a call. -/
def program : (call : CommitCall ι) →
    Prog CommitOp (fun op => Except CommitError op.Ret) call.Result
  | .commit i => (runCommitPhaseWithBranchBase (rivals.attempt i).branch rivals.epochBefore
      (rivals.attempt i).branchBefore (rivals.attempt i).candidate).run
  | .recover i _ => (recoverPartialCommitWithBranchBase (rivals.attempt i).branch
      rivals.epochBefore (rivals.attempt i).branchBefore (rivals.attempt i).candidate).run

/-- All calls, before any of them has started. -/
def pool (w : CommitWorld) :
    Pool CommitOp (fun op => Except CommitError op.Ret) (CommitCall.Result (ι := ι))
      CommitWorld :=
  ⟨rivals.program, w⟩

/-- What a call may do to the refs: a commit moves both of them from the epoch before, and a
recovery moves the branch of the merge whose candidate is the epoch. -/
def MovesRefs : CommitCall ι → CommitWorld → CommitWorld → Prop
  | .commit i, w, w' => w'.refs = w.refs ∨
      w.refs.Matches epochCurrent rivals.epochBefore ∧ w'.refs = w.refs.setAll (rivals.edits i)
  | .recover i _, w, w' => w'.refs = w.refs ∨
      w.refs.lookup epochCurrent = some (rivals.attempt i).candidate ∧
        w'.refs = w.refs.insert (branchRef (rivals.attempt i).branch) (rivals.attempt i).candidate

/-- The epoch and the branch of a merge are at its candidate. -/
def BothAt (i : ι) (refs : RefStore) : Prop :=
  refs.lookup epochCurrent = some (rivals.attempt i).candidate ∧
    refs.lookup (branchRef (rivals.attempt i).branch) = some (rivals.attempt i).candidate

/-- What a call that returns tells of the refs. -/
def Reports : (call : CommitCall ι) → call.Result → CommitWorld → Prop
  | .commit i, r, w => r = .ok .committed → rivals.BothAt i w.refs
  | .recover i _, r, w =>
    r = .ok .alreadyCommitted ∨ r = .ok .finalizedMainRef → rivals.BothAt i w.refs

/-- A step of any call. -/
def AnyMove (w w' : CommitWorld) : Prop := ∃ call, rivals.MovesRefs call w w'

variable {rivals} {w w' : CommitWorld} {i j : ι} {name : String}

theorem lookup_setAll (refs : RefStore) : (refs.setAll (rivals.edits i)).lookup name =
    if name = branchRef (rivals.attempt i).branch ∨ name = epochCurrent then
      some (rivals.attempt i).candidate else refs.lookup name := by
  rw [RefStore.setAll, edits, List.foldl_cons, List.foldl_cons, List.foldl_nil,
    FiniteMap.lookup_insert, FiniteMap.lookup_insert]
  by_cases hb : name = branchRef (rivals.attempt i).branch
  · rw [if_pos hb, if_pos (.inl hb)]
  · rw [if_neg hb]
    simp only [hb, false_or]

/-- The refs that a step leaves at the epoch before were there. -/
theorem MovesRefs.lookup_before {call : CommitCall ι} (h : rivals.MovesRefs call w w')
    (hname : w'.refs.lookup name = some rivals.epochBefore) :
    w.refs.lookup name = some rivals.epochBefore := by
  cases call with
  | commit i =>
    rcases h with heq | ⟨-, heq⟩
    · exact heq ▸ hname
    · rw [heq, lookup_setAll] at hname
      split_ifs at hname
      · exact absurd (Option.some.inj hname) (rivals.candidate_ne i)
      · exact hname
  | recover i n =>
    rcases h with heq | ⟨-, heq⟩
    · exact heq ▸ hname
    · rw [heq, FiniteMap.lookup_insert] at hname
      split_ifs at hname
      · exact absurd (Option.some.inj hname) (rivals.candidate_ne i)
      · exact hname

/-- Once the epoch is at a candidate it stays there, and only the branch of that merge moves. -/
theorem MovesRefs.of_epoch {call : CommitCall ι} (h : rivals.MovesRefs call w w')
    (hepoch : w.refs.lookup epochCurrent = some (rivals.attempt i).candidate) :
    w'.refs = w.refs ∨
      w'.refs = w.refs.insert (branchRef (rivals.attempt i).branch) (rivals.attempt i).candidate := by
  cases call with
  | commit j =>
    rcases h with heq | ⟨hmatch, -⟩
    · exact .inl heq
    · exact absurd hmatch (RefStore.not_matches_of_lookup hepoch (rivals.candidate_ne i))
  | recover j n =>
    rcases h with heq | ⟨hj, heq⟩
    · exact .inl heq
    · obtain rfl := rivals.candidate_injective (Option.some.inj (hj.symm.trans hepoch))
      exact .inr heq

theorem bothAt_insert {refs : RefStore}
    (hepoch : refs.lookup epochCurrent = some (rivals.attempt i).candidate) :
    rivals.BothAt i
      (refs.insert (branchRef (rivals.attempt i).branch) (rivals.attempt i).candidate) := by
  refine ⟨?_, Finmap.lookup_insert _⟩
  rw [FiniteMap.lookup_insert, if_neg (branchRef_ne_epochCurrent _).symm, hepoch]

theorem stable_epoch (i : ι) : Stable rivals.AnyMove fun w =>
    w.refs.lookup epochCurrent = some (rivals.attempt i).candidate := by
  rintro w w' ⟨call, h⟩ hepoch
  rcases h.of_epoch hepoch with heq | heq
  · rw [heq, hepoch]
  · rw [heq]
    exact (bothAt_insert hepoch).1

theorem stable_bothAt (i : ι) : Stable rivals.AnyMove fun w => rivals.BothAt i w.refs := by
  rintro w w' hmove ⟨hepoch, hbranch⟩
  obtain ⟨call, h⟩ := hmove
  rcases h.of_epoch hepoch with heq | heq
  · exact heq ▸ ⟨hepoch, hbranch⟩
  · exact heq ▸ bothAt_insert hepoch

theorem stable_true : Stable rivals.AnyMove fun _ => True := fun _ _ _ _ => trivial

/-! ### The programs keep to their moves -/

theorem meets_commit (i : ι) : Meets CommitOp.exec rivals.AnyMove (rivals.MovesRefs (.commit i))
    (rivals.Reports (.commit i)) (rivals.program (.commit i)) fun _ => True := by
  have herror (e : CommitError) (w : CommitWorld) : rivals.Reports (.commit i) (.error e) w :=
    fun h => by cases h
  have hwrite (state : CommitStateFile) (w w' : CommitWorld) (r : Except CommitError Unit)
      (h : CommitOp.exec (.writeMergeState state) w r w') : rivals.MovesRefs (.commit i) w w' := by
    rcases h with ⟨-, rfl⟩ | ⟨-, rfl | rfl⟩ <;> exact .inl rfl
  rw [program, run_runCommitPhase]
  refine meets_attempt herror stable_true (fun _ _ => True)
    (fun w r w' _ h => hwrite _ w w' r h) (fun _ _ _ _ _ => trivial) fun _ => ?_
  refine meets_attempt herror stable_true (fun _ w => rivals.BothAt i w.refs) ?_ ?_ fun _ => ?_
  · rintro w r w' - ⟨result, refs, hupdate, -, rfl⟩
    rcases hupdate with ⟨-, hmatch, rfl⟩ | ⟨-, rfl⟩
    · exact .inr ⟨hmatch ⟨epochCurrent, rivals.epochBefore, _⟩ List.mem_cons_self, rfl⟩
    · exact .inl rfl
  · rintro w a w' - ⟨result, refs, hupdate, hr, rfl⟩
    rcases hupdate with ⟨-, -, rfl⟩ | ⟨⟨e, rfl⟩, -⟩
    · have hset (name : String) : (w.refs.setAll (rivals.edits i)).lookup name =
          if name = branchRef (rivals.attempt i).branch ∨ name = epochCurrent then
            some (rivals.attempt i).candidate else w.refs.lookup name := lookup_setAll w.refs
      exact ⟨(hset _).trans (if_pos (.inr rfl)), (hset _).trans (if_pos (.inl rfl))⟩
    · cases hr
  refine meets_attempt herror (stable_bothAt i) (fun _ w => rivals.BothAt i w.refs)
    (fun w r w' _ h => hwrite _ w w' r h) ?_ fun _ => ?_
  · rintro w a w' hboth (⟨-, rfl⟩ | ⟨h, -⟩)
    · exact hboth
    · cases h
  · exact meets_done (stable_bothAt i) fun w hboth _ => hboth

theorem meets_recover (i : ι) (n : Nat) :
    Meets CommitOp.exec rivals.AnyMove (rivals.MovesRefs (.recover i n))
      (rivals.Reports (.recover i n)) (rivals.program (.recover i n)) fun _ => True := by
  have herror (e : CommitError) (w : CommitWorld) : rivals.Reports (.recover i n) (.error e) w := by
    rintro (h | h) <;> cases h
  have hread (name : String) (w w' : CommitWorld) (r : Except CommitError (Option GitOid))
      (h : CommitOp.exec (.readRef name) w r w') : rivals.MovesRefs (.recover i n) w w' := by
    obtain ⟨-, rfl⟩ := h
    exact .inl rfl
  -- what recovery has read of the epoch stays true once it is the candidate
  have hepoch (epoch : Option GitOid) : Stable rivals.AnyMove fun w =>
      epoch = some (rivals.attempt i).candidate →
        w.refs.lookup epochCurrent = some (rivals.attempt i).candidate :=
    fun w w' hmove h heq => stable_epoch i w w' hmove (h heq)
  rw [program, run_recoverPartialCommit]
  refine meets_attempt herror stable_true _ (fun w r w' _ h => hread _ w w' r h) ?_ fun epoch =>
    meets_attempt herror (hepoch epoch) (fun branchHead w =>
      epoch = some (rivals.attempt i).candidate → w.refs.lookup epochCurrent =
        some (rivals.attempt i).candidate ∧
          (branchHead = some (rivals.attempt i).candidate → rivals.BothAt i w.refs))
      (fun w r w' _ h => hread _ w w' r h) ?_ fun branchHead => ?_
  · rintro w epoch w' - ⟨hr, rfl⟩ rfl
    rcases hr with hr | ⟨e, hr⟩
    · exact (Except.ok.inj hr).symm
    · cases hr
  · rintro w branchHead w' hw ⟨hr, rfl⟩ hcandidate
    refine ⟨hw hcandidate, ?_⟩
    rintro rfl
    rcases hr with hr | ⟨e, hr⟩
    · exact ⟨hw hcandidate, (Except.ok.inj hr).symm⟩
    · cases hr
  · have hstable : Stable rivals.AnyMove fun w => epoch = some (rivals.attempt i).candidate →
        w.refs.lookup epochCurrent = some (rivals.attempt i).candidate ∧
          (branchHead = some (rivals.attempt i).candidate → rivals.BothAt i w.refs) := by
      intro w w' hmove hw hcandidate
      obtain ⟨hw, hboth⟩ := hw hcandidate
      exact ⟨stable_epoch i w w' hmove hw, fun hbranch =>
        stable_bothAt i w w' hmove (hboth hbranch)⟩
    rw [classifyRefs]
    split_ifs with hboth hfinal hnone
    · refine meets_done hstable fun w hw _ => ?_
      exact (hw hboth.1).2 hboth.2
    · rw [run_finalize]
      refine meets_attempt herror hstable (fun _ w => rivals.BothAt i w.refs) ?_ ?_ fun _ => ?_
      · rintro w r w' hw ⟨result, refs, hupdate, -, rfl⟩
        rcases hupdate with ⟨-, -, rfl⟩ | ⟨-, rfl⟩
        · exact .inr ⟨(hw hfinal.1).1, rfl⟩
        · exact .inl rfl
      · rintro w a w' hw ⟨result, refs, hupdate, hr, rfl⟩
        rcases hupdate with ⟨-, -, rfl⟩ | ⟨⟨e, rfl⟩, -⟩
        · exact bothAt_insert (hw hfinal.1).1
        · cases hr
      · refine meets_attempt herror (stable_bothAt i) (fun _ w => rivals.BothAt i w.refs) ?_ ?_
          fun _ => meets_done (stable_bothAt i) fun w hboth _ => hboth
        · rintro w r w' - (⟨-, rfl⟩ | ⟨-, rfl | rfl⟩) <;> exact .inl rfl
        · rintro w a w' hboth (⟨-, rfl⟩ | ⟨h, -⟩)
          · exact hboth
          · cases h
    · refine meets_done hstable fun w _ h => ?_
      rcases h with h | h <;> cases h
    · refine meets_done hstable fun w _ h => ?_
      rcases h with h | h <;> cases h

theorem meets_program (call : CommitCall ι) (w : CommitWorld) :
    ∃ P, P (rivals.pool w).state ∧ Meets CommitOp.exec rivals.AnyMove (rivals.MovesRefs call)
      (rivals.Reports call) ((rivals.pool w).progs call) P := by
  refine ⟨fun _ => True, trivial, ?_⟩
  cases call with
  | commit i => exact meets_commit i
  | recover i n => exact meets_recover i n

/-! ### Runs -/

section Runs

variable {start : CommitWorld}
  {events later : List (Event (CommitCall ι) CommitOp CommitWorld)}
  {pool pool' : Pool CommitOp (fun op => Except CommitError op.Ret)
    (CommitCall.Result (ι := ι)) CommitWorld}

/-- A recovery that finds nothing committed has not written a ref. -/
theorem forgoes_recover (i : ι) (n : Nat) : (rivals.program (.recover i n)).Forgoes
    (fun op => ∃ edits, op = .updateRefsAtomic edits) (· = .ok .notCommitted) := by
  have hread (name : String) : ¬ ∃ edits, CommitOp.readRef name = .updateRefsAtomic edits := by
    rintro ⟨edits, h⟩
    cases h
  rw [program, run_recoverPartialCommit]
  rintro (e | epoch)
  · exact ⟨fun h => absurd h (hread _), trivial⟩
  refine ⟨fun h => absurd h (hread _), ?_⟩
  rintro (e | branchHead)
  · exact ⟨fun h => absurd h (hread _), trivial⟩
  refine ⟨fun h => absurd h (hread _), ?_⟩
  rw [andThen, classifyRefs]
  split_ifs with hboth hfinal hnone
  · trivial
  · rw [run_finalize]
    rintro (e | a)
    · exact ⟨fun _ h => (by cases h), trivial⟩
    · refine ⟨fun _ => ?_, ?_⟩
      · rintro (e | a) h <;> cases h
      · rintro (e | a)
        · exact ⟨fun _ h => (by cases h), trivial⟩
        · exact ⟨fun _ h => (by cases h), trivial⟩
  · trivial
  · trivial

/-- The operations that are no transaction leave the refs alone. -/
theorem exec_refs {op : CommitOp} {r : Except CommitError op.Ret}
    (h : op.exec w r w') (hop : ¬ ∃ edits, op = .updateRefsAtomic edits) : w'.refs = w.refs := by
  cases op with
  | readRef name => rw [h.2]
  | updateRefsAtomic edits => exact absurd ⟨edits, rfl⟩ hop
  | writeMergeState state =>
    rcases h with ⟨-, rfl⟩ | ⟨-, rfl | rfl⟩ <;> rfl

variable [DecidableEq ι]

theorem exec_event (h : Run CommitOp.exec (rivals.pool start) events pool) :
    ∀ e ∈ events, ∃ r : Except CommitError e.op.Ret, e.op.exec e.before r e.after := by
  induction h with
  | nil => exact fun e he => absurd he List.not_mem_nil
  | step _ _ hexec ih =>
    intro e he
    rcases List.mem_append.mp he with he | he
    · exact ih e he
    · obtain rfl := List.mem_singleton.mp he
      exact ⟨_, hexec⟩

/-- The epoch and the branches of the merges never go back from a candidate to the epoch
before. -/
def NeverBack (rivals : Rivals ι) (w w' : CommitWorld) : Prop :=
  ∀ name i, w.refs.lookup name = some (rivals.attempt i).candidate →
    w'.refs.lookup name ≠ some rivals.epochBefore

/-- The commits of the pool that returned and the reports of its recoveries. -/
structure CommitsOnce (rivals : Rivals ι)
    (events : List (Event (CommitCall ι) CommitOp CommitWorld))
    (pool : Pool CommitOp (fun op => Except CommitError op.Ret)
      (CommitCall.Result (ι := ι)) CommitWorld) : Prop where
  /-- A commit moves both refs or none. -/
  atomic : ∀ e ∈ events, ∀ i, e.who = .commit i →
    e.after.refs = e.before.refs ∨ rivals.BothAt i e.after.refs
  /-- At most one commit moves the refs, and at most one returns. -/
  unique : ∀ i j, (pool.progs (.commit i) = .done (.ok .committed) ∨
      ∃ e ∈ events, e.who = .commit i ∧ e.after.refs ≠ e.before.refs) →
    (pool.progs (.commit j) = .done (.ok .committed) ∨
      ∃ e ∈ events, e.who = .commit j ∧ e.after.refs ≠ e.before.refs) → i = j
  /-- A recovery that says so leaves the refs at the candidate. -/
  reports : ∀ i n, pool.progs (.recover i n) = .done (.ok .alreadyCommitted) ∨
    pool.progs (.recover i n) = .done (.ok .finalizedMainRef) → rivals.BothAt i pool.state.refs
  /-- A recovery that finds nothing committed does not move the refs. -/
  silent : ∀ i n, pool.progs (.recover i n) = .done (.ok .notCommitted) →
    ∀ e ∈ events, e.who = .recover i n → e.after.refs = e.before.refs

/-- A commit that moved the refs has moved the epoch to its candidate. -/
theorem epoch_of_moved (h : Run CommitOp.exec (rivals.pool start) events pool) (i : ι)
    (hi : ∃ e ∈ events, e.who = .commit i ∧ e.after.refs ≠ e.before.refs) :
    pool.state.refs.lookup epochCurrent = some (rivals.attempt i).candidate := by
  induction h with
  | nil =>
    obtain ⟨e, he, -⟩ := hi
    exact absurd he List.not_mem_nil
  | @step events pool call op next r s h hcall hexec ih =>
    have hmoves := ((h.step hcall hexec).meets (fun call _ _ _ _ h => ⟨call, h⟩)
      (fun call => meets_program call start)).2
    have hlast := hmoves _ (List.mem_append_right _ List.mem_cons_self)
    obtain ⟨e, he, hwho, hne⟩ := hi
    rcases List.mem_append.mp he with he | he
    · exact stable_epoch i _ _ ⟨_, hlast⟩ (ih ⟨e, he, hwho, hne⟩)
    · obtain rfl := List.mem_singleton.mp he
      obtain rfl : call = .commit i := hwho
      rcases hlast with heq | ⟨-, heq⟩
      · exact absurd heq hne
      · exact heq.symm ▸ (lookup_setAll _).trans (if_pos (.inr rfl))

theorem epoch_of_commit (h : Run CommitOp.exec (rivals.pool start) events pool) (i : ι)
    (hi : pool.progs (.commit i) = .done (.ok .committed) ∨
      ∃ e ∈ events, e.who = .commit i ∧ e.after.refs ≠ e.before.refs) :
    pool.state.refs.lookup epochCurrent = some (rivals.attempt i).candidate := by
  rcases hi with hdone | hmoved
  · exact (h.promise (fun call _ _ _ _ h => ⟨call, h⟩) (fun call => meets_program call start)
      hdone rfl).1
  · exact epoch_of_moved h i hmoved

theorem commitsOnce (h : Run CommitOp.exec (rivals.pool start) events pool) :
    CommitsOnce rivals events pool where
  atomic e he i hwho := by
    have hmoves := (h.meets (fun call _ _ _ _ h => ⟨call, h⟩)
      (fun call => meets_program call start)).2 e he
    rw [hwho] at hmoves
    rcases hmoves with heq | ⟨-, heq⟩
    · exact .inl heq
    · refine .inr ⟨?_, ?_⟩
      · exact heq ▸ (lookup_setAll _).trans (if_pos (.inr rfl))
      · exact heq ▸ (lookup_setAll _).trans (if_pos (.inl rfl))
  unique i j hi hj := by
    have heq := (epoch_of_commit h i hi).symm.trans (epoch_of_commit h j hj)
    exact rivals.candidate_injective (Option.some.inj heq)
  reports i n hdone := by
    have hpromise {r : Except CommitError CommitRecovery}
        (hr : pool.progs (.recover i n) = .done r) : rivals.Reports (.recover i n) r pool.state :=
      h.promise (fun call _ _ _ _ h => ⟨call, h⟩) (fun call => meets_program call start) hr
    rcases hdone with hdone | hdone
    · exact hpromise hdone (.inl rfl)
    · exact hpromise hdone (.inr rfl)
  silent i n hdone e he hwho := by
    by_contra hne
    have hop : ∃ edits, e.op = .updateRefsAtomic edits := by
      by_contra hop
      obtain ⟨r, hr⟩ := exec_event h e he
      exact hne (exec_refs hr hop)
    have havoids := (h.not_performed (forgoes_recover i n)).2 ⟨e, he, hwho, hop⟩
    rw [hdone] at havoids
    exact havoids rfl

/-! ### Recovery, again -/

/-- What a second recovery returns. -/
def again : CommitRecovery → CommitRecovery
  | .notCommitted => .notCommitted
  | _ => .alreadyCommitted

/-- A recovery that returned leaves nothing to do for the next one. -/
def RecoverIdempotent (rivals : Rivals ι) : Prop :=
  ∀ i n m w w' w'' result r,
    Prog.Runs CommitOp.exec (rivals.program (.recover i n)) w (.done (.ok result)) w' →
    Prog.Runs CommitOp.exec (rivals.program (.recover i m)) w' (.done r) w'' →
    w''.refs = w'.refs ∧ ∀ result', r = .ok result' → result' = again result

omit [DecidableEq ι] in
/-- A recovery that reads the refs goes on with what they are. -/
theorem runs_recover {n : Nat} {r : Except CommitError CommitRecovery}
    (h : Prog.Runs CommitOp.exec (rivals.program (.recover i n)) w (.done r) w') :
    (w' = w ∧ ∃ e, r = .error e) ∨
      Prog.Runs CommitOp.exec (classifyRefs (rivals.attempt i).branch rivals.epochBefore
        (rivals.attempt i).branchBefore (rivals.attempt i).candidate
        (w.refs.lookup epochCurrent) (w.refs.lookup (branchRef (rivals.attempt i).branch))).run
          w (.done r) w' := by
  rw [program, run_recoverPartialCommit] at h
  rcases runs_attempt h with ⟨epoch, w₁, ⟨hepoch, rfl⟩, hrest⟩ | ⟨e, ⟨-, rfl⟩, hr⟩
  · rcases runs_attempt hrest with ⟨branchHead, w₂, ⟨hbranch, rfl⟩, hlast⟩ | ⟨e, ⟨-, rfl⟩, hr⟩
    · rcases hepoch with hepoch | ⟨e, hepoch⟩
      · rcases hbranch with hbranch | ⟨e, hbranch⟩
        · obtain rfl := Except.ok.inj hepoch
          obtain rfl := Except.ok.inj hbranch
          exact .inr hlast
        · cases hbranch
      · cases hepoch
    · exact .inl ⟨rfl, e, hr⟩
  · exact .inl ⟨rfl, e, hr⟩

omit [DecidableEq ι] in
theorem runs_recover_of_bothAt {n : Nat} {r : Except CommitError CommitRecovery}
    (h : Prog.Runs CommitOp.exec (rivals.program (.recover i n)) w (.done r) w')
    (hboth : rivals.BothAt i w.refs) :
    w'.refs = w.refs ∧ ∀ result, r = .ok result → result = .alreadyCommitted := by
  rcases runs_recover h with ⟨rfl, e, rfl⟩ | h
  · exact ⟨rfl, fun _ h => by cases h⟩
  · rw [classifyRefs, if_pos (show _ ∧ _ from hboth), run_pure'] at h
    obtain ⟨hr, rfl⟩ := runs_done h
    refine ⟨rfl, ?_⟩
    rintro result rfl
    exact Except.ok.inj (Prog.done.inj hr)

omit [DecidableEq ι] in
theorem runs_recover_of_before {n : Nat} {r : Except CommitError CommitRecovery}
    (h : Prog.Runs CommitOp.exec (rivals.program (.recover i n)) w (.done r) w')
    (hepoch : w.refs.lookup epochCurrent = some rivals.epochBefore)
    (hbranch : w.refs.lookup (branchRef (rivals.attempt i).branch) =
      some (rivals.attempt i).branchBefore) :
    w'.refs = w.refs ∧ ∀ result, r = .ok result → result = .notCommitted := by
  rcases runs_recover h with ⟨rfl, e, rfl⟩ | h
  · exact ⟨rfl, fun _ h => by cases h⟩
  · have hne : some rivals.epochBefore ≠ some (rivals.attempt i).candidate :=
      fun h => rivals.candidate_ne i (Option.some.inj h).symm
    rw [classifyRefs, hepoch, if_neg (fun h => hne h.1), if_neg (fun h => hne h.1),
      if_pos ⟨rfl, hbranch⟩, run_pure'] at h
    obtain ⟨hr, rfl⟩ := runs_done h
    refine ⟨rfl, ?_⟩
    rintro result rfl
    exact Except.ok.inj (Prog.done.inj hr)

omit [DecidableEq ι] in
theorem recover_idempotent (rivals : Rivals ι) : RecoverIdempotent rivals := by
  intro i n m w w' w'' result r hfirst hsecond
  rcases runs_recover hfirst with ⟨rfl, e, he⟩ | h
  · cases he
  rw [classifyRefs] at h
  split_ifs at h with hboth hfinal hnone
  · obtain ⟨hr, rfl⟩ := runs_done h
    obtain rfl := Except.ok.inj (Prog.done.inj hr)
    exact runs_recover_of_bothAt hsecond hboth
  · rw [run_finalize] at h
    rcases runs_attempt h with ⟨a, w₁, ⟨done, refs, hupdate, hdone, rfl⟩, h⟩ | ⟨e, -, he⟩
    · rcases hupdate with ⟨-, -, rfl⟩ | ⟨⟨e, rfl⟩, -⟩
      · rcases runs_attempt h with ⟨b, w₂, hwrite, h⟩ | ⟨e, -, he⟩
        · obtain ⟨hr, rfl⟩ := runs_done h
          obtain rfl := Except.ok.inj (Prog.done.inj hr)
          refine runs_recover_of_bothAt hsecond ?_
          rcases hwrite with ⟨-, rfl⟩ | ⟨he, -⟩
          · exact bothAt_insert hfinal.1
          · cases he
        · cases he
      · cases hdone
    · cases he
  · obtain ⟨hr, rfl⟩ := runs_done h
    obtain rfl := Except.ok.inj (Prog.done.inj hr)
    exact runs_recover_of_before hsecond hnone.1 hnone.2
  · obtain ⟨hr, -⟩ := runs_done h
    cases hr

/-- Commits of one epoch to different candidates, run with any recoveries in any order and
interrupted anywhere: each moves both of its refs or none, at most one succeeds, recoveries report
the refs as they are and are idempotent, and no ref goes back from a candidate to the epoch
before. -/
theorem commit_concurrent (h : Run CommitOp.exec (rivals.pool start) events pool)
    (hlater : Run CommitOp.exec pool later pool') :
    CommitsOnce rivals events pool ∧ NeverBack rivals pool.state pool'.state ∧
      RecoverIdempotent rivals := by
  refine ⟨commitsOnce h, fun name i hname hback => ?_, recover_idempotent rivals⟩
  have hmeets := (h.meets (fun call _ _ _ _ h => ⟨call, h⟩)
    (fun call => meets_program call start)).1
  have hmoves := (hlater.meets (fun call _ _ _ _ h => ⟨call, h⟩) hmeets).2
  have hbefore : pool.state.refs.lookup name = some rivals.epochBefore := by
    refine hlater.induction (T := fun w w' => w'.refs.lookup name = some rivals.epochBefore →
      w.refs.lookup name = some rivals.epochBefore) ?_ ?_ ?_ hback
    · exact fun w h => h
    · exact fun w w' w'' h h' hlast => h (h' hlast)
    · exact fun e he => (hmoves e he).lookup_before
  exact rivals.candidate_ne i (Option.some.inj (hname.symm.trans hbefore))

end Runs

section Samples

/-- Two merges of one epoch into one branch. -/
private def twoMerges : Rivals Bool where
  epochBefore := sampleBlob 1
  attempt i := ⟨"main", sampleBlob 1, if i then sampleBlob 2 else sampleBlob 3⟩
  candidate_injective := by decide
  candidate_ne := by decide

private def bothBefore : CommitWorld :=
  ⟨((∅ : RefStore).insert epochCurrent (sampleBlob 1)).insert (branchRef "main") (sampleBlob 1),
    none⟩

/-- One of the merges commits and is interrupted before it writes its state again. -/
theorem commit_concurrent_twoMerges : ∃ events pool,
    Run CommitOp.exec (twoMerges.pool bothBefore) events pool ∧
      twoMerges.BothAt true pool.state.refs ∧ CommitsOnce twoMerges events pool ∧
        NeverBack twoMerges pool.state pool.state ∧ RecoverIdempotent twoMerges := by
  have hprogram : (twoMerges.pool bothBefore).progs (.commit true) = .call _ _ := run_runCommitPhase
  have hfirst : CommitOp.exec (.writeMergeState
      ⟨.commit, sampleBlob 1, sampleBlob 2, false, false⟩) bothBefore (.ok ())
        { bothBefore with
          stateFile := some ⟨.commit, sampleBlob 1, sampleBlob 2, false, false⟩ } :=
    .inl ⟨rfl, rfl⟩
  have hwrite := Run.nil.step hprogram hfirst
  have hsecond : CommitOp.exec (.updateRefsAtomic (twoMerges.edits true))
      { bothBefore with
        stateFile := some ⟨.commit, sampleBlob 1, sampleBlob 2, false, false⟩ } (.ok ())
        { bothBefore with
          refs := bothBefore.refs.setAll (twoMerges.edits true)
          stateFile := some ⟨.commit, sampleBlob 1, sampleBlob 2, false, false⟩ } :=
    ⟨.ok (), _, .inl ⟨rfl, by decide +kernel, rfl⟩, rfl, rfl⟩
  have hmove := hwrite.step (Pool.advance_self ..) hsecond
  refine ⟨_, _, hmove, ?_, commit_concurrent hmove .nil⟩
  exact ⟨by decide +kernel, by decide +kernel⟩

end Samples

end Rivals

end Maw
