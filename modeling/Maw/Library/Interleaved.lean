import Mathlib.Logic.Function.Basic

/-!
# Interleaved programs over a shared state

A program performs atomic operations, one after another, on a state that it shares with others;
what an operation returns and how it changes the state is a relation. A pool of programs takes
its steps in any order, and a program that crashes takes no further ones, so that the runs of a
pool are also its crashes. Programs are proved against the steps that the others may take: each
assertion between two operations is kept by them, and each operation is a step of its own.

## Main definitions

* `Prog` — programs; `perform` — one operation.
* `Prog.Runs` — the partial runs of one program on its own.
* `Meets` — a program takes its own steps only and ends as promised.
* `Run` — the runs of a pool, with their events.

## Main results

* `Run.meets` — in a run, every program still meets its promise.
-/

namespace Interleaved

universe u v w x

/-- A program: a result, or an operation and what follows each of its outcomes. -/
inductive Prog (Op : Type u) (Res : Op → Type v) (α : Type w)
  | done (a : α)
  | call (op : Op) (next : Res op → Prog Op Res α)

variable {Op : Type u} {Res : Op → Type v} {α β : Type w} {σ : Type x}

namespace Prog

protected def bind : Prog Op Res α → (α → Prog Op Res β) → Prog Op Res β
  | done a, f => f a
  | call op next, f => call op fun r => (next r).bind f

instance : Monad (Prog Op Res) where
  pure := done
  bind := Prog.bind

instance : LawfulMonad (Prog Op Res) := by
  refine LawfulMonad.mk' (Prog Op Res) (fun p => ?_) (fun _ _ => rfl) fun p f g => ?_
  · induction p with
    | done a => rfl
    | call op next ih => exact congrArg (call op) (funext ih)
  · induction p with
    | done a => rfl
    | call op next ih => exact congrArg (call op) (funext ih)

/-- Perform one operation. -/
def perform (op : Op) : Prog Op Res (Res op) := call op done

/-- The partial runs of a program on its own: those that it is interrupted after. -/
inductive Runs (exec : (op : Op) → σ → Res op → σ → Prop) :
    Prog Op Res α → σ → Prog Op Res α → σ → Prop
  | refl (p : Prog Op Res α) (s : σ) : Runs exec p s p s
  | step {op : Op} {next : Res op → Prog Op Res α} {r : Res op} {s s' s'' : σ}
      {q : Prog Op Res α} (h : exec op s r s') (hrun : Runs exec (next r) s' q s'') :
      Runs exec (call op next) s q s''

/-- All operations of the program are of a kind. -/
def Only (P : Op → Prop) : Prog Op Res α → Prop
  | done _ => True
  | call op next => P op ∧ ∀ r, (next r).Only P

theorem Only.bind {P : Op → Prop} {p : Prog Op Res α} {f : α → Prog Op Res β} (hp : p.Only P)
    (hf : ∀ a, (f a).Only P) : (p >>= f).Only P := by
  induction p with
  | done a => exact hf a
  | call op next ih => exact ⟨hp.1, fun r => ih r (hp.2 r)⟩

theorem Only.mono {P P' : Op → Prop} (hP : ∀ op, P op → P' op) {p : Prog Op Res α}
    (hp : p.Only P) : p.Only P' := by
  induction p with
  | done a => trivial
  | call op next ih => exact ⟨hP op hp.1, fun r => ih r (hp.2 r)⟩

theorem Runs.trans {exec : (op : Op) → σ → Res op → σ → Prop} {p q r : Prog Op Res α}
    {s s' s'' : σ} (h : Runs exec p s q s') (h' : Runs exec q s' r s'') : Runs exec p s r s'' := by
  induction h with
  | refl p s => exact h'
  | step hexec _ ih => exact .step hexec (ih h')

theorem Runs.only {exec : (op : Op) → σ → Res op → σ → Prop} {P : Op → Prop}
    {p q : Prog Op Res α} {s s' : σ} (h : Runs exec p s q s') (hp : p.Only P) : q.Only P := by
  induction h with
  | refl p s => exact hp
  | step hexec _ ih => exact ih (hp.2 _)

/-- The first of two programs runs in front of the second one. -/
theorem Runs.bind_left {exec : (op : Op) → σ → Res op → σ → Prop} {p q : Prog Op Res α}
    {s s' : σ} (h : Runs exec p s q s') (f : α → Prog Op Res β) :
    Runs exec (p >>= f) s (q >>= f) s' := by
  induction h with
  | refl p s => exact .refl _ _
  | step hexec _ ih => exact .step hexec ih

/-- The frame rule: a program whose operations all keep to a reflexive and transitive relation
does so in all its runs. -/
theorem Runs.frame {exec : (op : Op) → σ → Res op → σ → Prop} {P : Op → Prop}
    {T : σ → σ → Prop} (hrefl : ∀ s, T s s) (htrans : ∀ s s' s'', T s s' → T s' s'' → T s s'')
    (hop : ∀ op s r s', P op → exec op s r s' → T s s') {p q : Prog Op Res α} {s s' : σ}
    (h : Runs exec p s q s') (hp : p.Only P) : T s s' := by
  induction h with
  | refl p s => exact hrefl s
  | step hexec _ ih => exact htrans _ _ _ (hop _ _ _ _ hp.1 hexec) (ih (hp.2 _))

/-- No result of the program is one of these. -/
def Avoids (B : α → Prop) : Prog Op Res α → Prop
  | done a => ¬ B a
  | call _ next => ∀ r, (next r).Avoids B

theorem avoids_bind {B : β → Prop} {p : Prog Op Res α} {f : α → Prog Op Res β}
    (hf : ∀ a, (f a).Avoids B) : (p >>= f).Avoids B := by
  induction p with
  | done a => exact hf a
  | call op next ih => exact ih

/-- A program goes on after one that avoids some results. -/
theorem Only.bind_of_avoids {P : Op → Prop} {B : α → Prop} {p : Prog Op Res α}
    {f : α → Prog Op Res β} (hp : p.Only P) (hB : p.Avoids B) (hf : ∀ a, ¬ B a → (f a).Only P) :
    (p >>= f).Only P := by
  induction p with
  | done a => exact hf a hB
  | call op next ih => exact ⟨hp.1, fun r => ih r (hp.2 r) (hB r)⟩

theorem Runs.avoids {exec : (op : Op) → σ → Res op → σ → Prop} {B : α → Prop}
    {p q : Prog Op Res α} {s s' : σ} (h : Runs exec p s q s') (hp : p.Avoids B) : q.Avoids B := by
  induction h with
  | refl p s => exact hp
  | step hexec _ ih => exact ih (hp _)

/-- After one of the operations, the program no longer ends with one of the results. -/
def Forgoes (W : Op → Prop) (B : α → Prop) : Prog Op Res α → Prop
  | done _ => True
  | call op next => ∀ r, (W op → (next r).Avoids B) ∧ (next r).Forgoes W B

/-- After an operation whose step is not in the relation, the program no longer ends with one of
the results. -/
def Settles (exec : (op : Op) → σ → Res op → σ → Prop) (T : σ → σ → Prop) (B : α → Prop) :
    Prog Op Res α → Prop
  | done _ => True
  | call op next => ∀ r, (∀ s s', exec op s r s' → ¬ T s s' → (next r).Avoids B) ∧
      (next r).Settles exec T B

theorem settles_of_avoids {exec : (op : Op) → σ → Res op → σ → Prop} {T : σ → σ → Prop}
    {B : α → Prop} {p : Prog Op Res α} (h : p.Avoids B) : p.Settles exec T B := by
  induction p with
  | done a => trivial
  | call op next ih => exact fun r => ⟨fun _ _ _ _ => h r, ih r (h r)⟩

/-- A program goes on after one whose operations are all in the relation. -/
theorem settles_bind {exec : (op : Op) → σ → Res op → σ → Prop} {T : σ → σ → Prop}
    {B : β → Prop} {K : Op → Prop} (hK : ∀ op s r s', K op → exec op s r s' → T s s')
    {p : Prog Op Res α} {f : α → Prog Op Res β} (hp : p.Only K)
    (hf : ∀ a, (f a).Settles exec T B) : (p >>= f).Settles exec T B := by
  induction p with
  | done a => exact hf a
  | call op next ih =>
    exact fun r => ⟨fun s s' hexec hnot => absurd (hK op s r s' hp.1 hexec) hnot, ih r (hp.2 r)⟩

/-- The result and the state of a program on its own, if its operations are functions. -/
def eval (exec : (op : Op) → σ → Res op × σ) : Prog Op Res α → σ → α × σ
  | done a, s => (a, s)
  | call op next, s => (next (exec op s).1).eval exec (exec op s).2

section Eval

variable (exec : (op : Op) → σ → Res op × σ)

theorem eval_bind (p : Prog Op Res α) (f : α → Prog Op Res β) (s : σ) :
    (p >>= f).eval exec s = (f (p.eval exec s).1).eval exec (p.eval exec s).2 := by
  induction p generalizing s with
  | done a => rfl
  | call op next ih => exact ih _ _

end Eval

end Prog

/-! ### Programs that may fail -/

section Fallible

variable {ε α β : Type w} {Ret : Op → Type w}

/-- Programs of operations that return a value or an error, which ends the program. -/
abbrev Fallible (ε : Type w) (Op : Type u) (Ret : Op → Type w) :=
  ExceptT ε (Prog Op fun op => Except ε (Ret op))

/-- Perform one operation that may fail. -/
def attempt (op : Op) : Fallible ε Op Ret (Ret op) := ExceptT.mk (.call op .done)

/-- What follows an operation that may fail. -/
def andThen (next : α → Prog Op (fun op => Except ε (Ret op)) (Except ε β)) :
    Except ε α → Prog Op (fun op => Except ε (Ret op)) (Except ε β)
  | .ok a => next a
  | .error e => .done (.error e)

/-- Perform a program and go on whether it fails or not. -/
def ignoreError (p : Fallible ε Op Ret α) : Fallible ε Op Ret PUnit :=
  ExceptT.mk (p.run >>= fun _ => .done (.ok ⟨⟩))

theorem run_attempt_bind (op : Op) (f : Ret op → Fallible ε Op Ret β) :
    (attempt op >>= f).run = .call op (andThen fun a => (f a).run) := by
  refine congrArg (Prog.call op) (funext fun r => ?_)
  cases r <;> rfl

/-- Perform a program and, if it fails, another one before its error is returned. -/
def onError (p : Fallible ε Op Ret α) (cleanUp : Fallible ε Op Ret PUnit) : Fallible ε Op Ret α :=
  ExceptT.mk (p.run >>= fun r =>
    match r with
    | .ok a => .done (.ok a)
    | .error e => cleanUp.run >>= fun _ => .done (.error e))

theorem only_andThen {P : Op → Prop}
    {next : α → Prog Op (fun op => Except ε (Ret op)) (Except ε β)} (h : ∀ a, (next a).Only P)
    (r : Except ε α) : (andThen next r).Only P := by
  rcases r with e | a
  · trivial
  · exact h a

theorem run_attempt (op : Op) :
    (attempt op : Fallible ε Op Ret (Ret op)).run = .call op (andThen fun a => .done (.ok a)) := by
  refine congrArg (Prog.call op) (funext fun r => ?_)
  cases r <;> rfl

@[simp]
theorem run_pure' (a : α) : (pure a : Fallible ε Op Ret α).run = .done (.ok a) := rfl

section Eval

variable (exec : (op : Op) → σ → Except ε (Ret op) × σ)

/-- The result and the state of a program that may fail. -/
def Fallible.alone (p : Fallible ε Op Ret α) (s : σ) : Except ε α × σ := p.run.eval exec s

@[simp]
theorem alone_pure (a : α) (s : σ) :
    Fallible.alone exec (pure a : Fallible ε Op Ret α) s = (.ok a, s) := rfl

theorem alone_attempt (op : Op) (s : σ) :
    Fallible.alone exec (attempt op : Fallible ε Op Ret (Ret op)) s = exec op s := rfl

theorem alone_bind (p : Fallible ε Op Ret α) (f : α → Fallible ε Op Ret β) (s : σ) :
    Fallible.alone exec (p >>= f) s =
      match Fallible.alone exec p s with
      | (.ok a, s') => Fallible.alone exec (f a) s'
      | (.error e, s') => (.error e, s') := by
  refine (Prog.eval_bind exec p.run _ s).trans ?_
  rw [Fallible.alone]
  rcases Prog.eval exec p.run s with ⟨e | a, s'⟩
  · rfl
  · rfl

theorem alone_ignoreError (p : Fallible ε Op Ret α) (s : σ) :
    Fallible.alone exec (ignoreError p) s = (.ok ⟨⟩, (Fallible.alone exec p s).2) :=
  Prog.eval_bind exec p.run _ s

end Eval

section Only

variable {P : Op → Prop} {p : Fallible ε Op Ret α} {f : α → Fallible ε Op Ret β}

theorem only_attempt {op : Op} (h : P op) :
    (attempt op : Fallible ε Op Ret (Ret op)).run.Only P :=
  ⟨h, fun _ => trivial⟩

theorem only_bind (hp : p.run.Only P) (hf : ∀ a, (f a).run.Only P) : (p >>= f).run.Only P := by
  refine Prog.Only.bind hp ?_
  rintro (e | a)
  · trivial
  · exact hf a

theorem only_ite {c : Prop} [Decidable c] {q : Fallible ε Op Ret α} (hp : p.run.Only P)
    (hq : q.run.Only P) : (if c then p else q).run.Only P := by
  by_cases hc : c
  · rwa [if_pos hc]
  · rwa [if_neg hc]

theorem only_ignoreError (hp : p.run.Only P) : (ignoreError p).run.Only P :=
  Prog.Only.bind hp fun _ => trivial

theorem only_onError {cleanUp : Fallible ε Op Ret PUnit} (hp : p.run.Only P)
    (hcleanUp : cleanUp.run.Only P) : (onError p cleanUp).run.Only P := by
  refine Prog.Only.bind hp fun r => ?_
  cases r with
  | ok a => trivial
  | error e => exact hcleanUp.bind fun _ => trivial

/-- No value of the program is one of these. -/
def Fallible.Avoids (B : α → Prop) (p : Fallible ε Op Ret α) : Prop :=
  p.run.Avoids fun r => ∃ a, r = .ok a ∧ B a

theorem Fallible.avoids_pure {B : α → Prop} {a : α} (h : ¬ B a) :
    Fallible.Avoids B (pure a : Fallible ε Op Ret α) := by
  rintro ⟨b, heq, hb⟩
  obtain rfl := Except.ok.inj heq
  exact h hb

theorem Fallible.avoids_bind {B : β → Prop} (hf : ∀ a, Fallible.Avoids B (f a)) :
    Fallible.Avoids B (p >>= f) := by
  refine Prog.avoids_bind ?_
  rintro (e | a)
  · rintro ⟨b, heq, -⟩
    cases heq
  · exact hf a

theorem only_bind_of_avoids {B : α → Prop} (hp : p.run.Only P) (hB : p.Avoids B)
    (hf : ∀ a, ¬ B a → (f a).run.Only P) : (p >>= f).run.Only P := by
  refine Prog.Only.bind_of_avoids hp hB ?_
  rintro (e | a) ha
  · trivial
  · exact hf a fun hb => ha ⟨a, rfl, hb⟩

end Only

end Fallible

/-! ### Runs of programs that may fail -/

section Runs

variable {ε : Type w} {α : Type w} {Ret : Op → Type w}
  {exec : (op : Op) → σ → Except ε (Ret op) → σ → Prop}

theorem runs_done {a : α} {s s' : σ} {q : Prog Op (fun op => Except ε (Ret op)) α}
    (h : Prog.Runs exec (.done a) s q s') : q = .done a ∧ s' = s := by
  cases h
  exact ⟨rfl, rfl⟩

/-- The runs of a program that begins with an operation: none of it, the operation and what
follows, or an operation that failed. -/
theorem runs_call_iff {op : Op}
    {next : Ret op → Prog Op (fun op => Except ε (Ret op)) (Except ε α)} {s s' : σ}
    {q : Prog Op (fun op => Except ε (Ret op)) (Except ε α)} :
    Prog.Runs exec (.call op (andThen next)) s q s' ↔
      (q = .call op (andThen next) ∧ s' = s) ∨
      (∃ a s₁, exec op s (.ok a) s₁ ∧ Prog.Runs exec (next a) s₁ q s') ∨
      ∃ e, exec op s (.error e) s' ∧ q = .done (.error e) := by
  constructor
  · intro h
    cases h with
    | refl => exact .inl ⟨rfl, rfl⟩
    | @step _ _ outcome _ s₁ _ _ hexec hrun =>
      cases outcome with
      | ok a => exact .inr (.inl ⟨a, s₁, hexec, hrun⟩)
      | error e =>
        obtain ⟨rfl, rfl⟩ := runs_done hrun
        exact .inr (.inr ⟨e, hexec, rfl⟩)
  · rintro (⟨rfl, rfl⟩ | ⟨a, s₁, hexec, hrun⟩ | ⟨e, hexec, rfl⟩)
    · exact .refl _ _
    · exact .step hexec hrun
    · exact .step hexec (.refl _ _)

/-- A run that begins with an operation that succeeds. -/
theorem runs_ok {op : Op} {next : Ret op → Prog Op (fun op => Except ε (Ret op)) (Except ε α)}
    {s s₁ s' : σ} {a : Ret op} {q : Prog Op (fun op => Except ε (Ret op)) (Except ε α)}
    (hexec : exec op s (.ok a) s₁) (hrun : Prog.Runs exec (next a) s₁ q s') :
    Prog.Runs exec (.call op (andThen next)) s q s' :=
  .step hexec hrun

/-- A program that ended performed its first operation. -/
theorem runs_attempt {op : Op} {next : Ret op → Prog Op (fun op => Except ε (Ret op)) (Except ε α)}
    {s s' : σ} {r : Except ε α} (h : Prog.Runs exec (.call op (andThen next)) s (.done r) s') :
    (∃ a s₁, exec op s (.ok a) s₁ ∧ Prog.Runs exec (next a) s₁ (.done r) s') ∨
      ∃ e, exec op s (.error e) s' ∧ r = .error e := by
  rcases runs_call_iff.mp h with ⟨heq, -⟩ | hok | ⟨e, hexec, heq⟩
  · exact absurd heq (by simp)
  · exact .inl hok
  · exact .inr ⟨e, hexec, Prog.done.inj heq⟩

end Runs

/-! ### Runs that return a value -/

section Returns

variable {ε : Type w} {α β : Type w} {Ret : Op → Type w}
  (exec : (op : Op) → σ → Except ε (Ret op) → σ → Prop)

/-- The program may return the value, in the state that it then leaves. -/
def Returns (p : Fallible ε Op Ret α) (s : σ) (a : α) (s' : σ) : Prop :=
  Prog.Runs exec p.run s (.done (.ok a)) s'

variable {exec} {s s' : σ}

theorem runs_bind_done {p : Prog Op (fun op => Except ε (Ret op)) α}
    {f : α → Prog Op (fun op => Except ε (Ret op)) β} {b : β} :
    Prog.Runs exec (p >>= f) s (.done b) s' ↔
      ∃ a s₁, Prog.Runs exec p s (.done a) s₁ ∧ Prog.Runs exec (f a) s₁ (.done b) s' := by
  constructor
  · intro h
    induction p generalizing s with
    | done a => exact ⟨a, s, .refl _ _, h⟩
    | call op next ih =>
      cases h with
      | step hexec hrun =>
        obtain ⟨a, s₁, hp, hf⟩ := ih _ hrun
        exact ⟨a, s₁, .step hexec hp, hf⟩
  · rintro ⟨a, s₁, hp, hf⟩
    induction p generalizing s with
    | done a' =>
      obtain ⟨heq, rfl⟩ := runs_done hp
      cases heq
      exact hf
    | call op next ih =>
      cases hp with
      | step hexec hrun => exact .step hexec (ih _ hrun)

/-- A program goes on after one that returned. -/
theorem Returns.bind_runs {p : Fallible ε Op Ret α} {f : α → Fallible ε Op Ret β} {a : α}
    {s₁ : σ} {q : Prog Op (fun op => Except ε (Ret op)) (Except ε β)}
    (hp : Returns exec p s a s₁) (hf : Prog.Runs exec (f a).run s₁ q s') :
    Prog.Runs exec (p >>= f).run s q s' :=
  (Prog.Runs.bind_left hp (ExceptT.bindCont f)).trans hf

theorem returns_bind {p : Fallible ε Op Ret α} {f : α → Fallible ε Op Ret β} {b : β} :
    Returns exec (p >>= f) s b s' ↔ ∃ a s₁, Returns exec p s a s₁ ∧ Returns exec (f a) s₁ b s' := by
  have hrun : (p >>= f).run = p.run >>= ExceptT.bindCont f := rfl
  rw [Returns, hrun, runs_bind_done]
  constructor
  · rintro ⟨r, s₁, hp, hf⟩
    rcases r with e | a
    · obtain ⟨heq, -⟩ := runs_done hf
      cases heq
    · exact ⟨a, s₁, hp, hf⟩
  · rintro ⟨a, s₁, hp, hf⟩
    exact ⟨.ok a, s₁, hp, hf⟩

@[simp]
theorem returns_pure {a b : α} :
    Returns exec (pure a : Fallible ε Op Ret α) s b s' ↔ b = a ∧ s' = s := by
  constructor
  · intro h
    obtain ⟨heq, rfl⟩ := runs_done h
    cases heq
    exact ⟨rfl, rfl⟩
  · rintro ⟨rfl, rfl⟩
    exact .refl _ _

@[simp]
theorem not_returns_throw {e : ε} {a : α} :
    ¬ Returns exec (throw e : Fallible ε Op Ret α) s a s' := by
  intro h
  obtain ⟨heq, -⟩ := runs_done h
  cases heq

theorem returns_attempt {op : Op} {a : Ret op} :
    Returns exec (attempt op) s a s' ↔ exec op s (.ok a) s' := by
  rw [Returns, run_attempt]
  constructor
  · intro h
    rcases runs_attempt h with ⟨a', s₁, hexec, hrun⟩ | ⟨e, -, he⟩
    · obtain ⟨heq, rfl⟩ := runs_done hrun
      cases heq
      exact hexec
    · cases he
  · exact fun h => runs_ok h (.refl _ _)

/-- What a program does of which the errors are ignored. -/
theorem returns_ignoreError {p : Fallible ε Op Ret α} {u : PUnit} :
    Returns exec (ignoreError p) s u s' ↔ ∃ r, Prog.Runs exec p.run s (.done r) s' := by
  have hrun : (ignoreError p).run = p.run >>= fun _ => .done (.ok u) := rfl
  rw [Returns, hrun, runs_bind_done]
  constructor
  · rintro ⟨r, s₁, hp, hdone⟩
    obtain ⟨-, rfl⟩ := runs_done hdone
    exact ⟨r, hp⟩
  · rintro ⟨r, hp⟩
    exact ⟨r, s', hp, .refl _ _⟩

/-- What is done on errors is not done by a program that returns. -/
theorem returns_onError {p : Fallible ε Op Ret α} {cleanUp : Fallible ε Op Ret PUnit} {a : α} :
    Returns exec (onError p cleanUp) s a s' ↔ Returns exec p s a s' := by
  have hrun : (onError p cleanUp).run = p.run >>= fun r =>
    match r with
    | .ok a => .done (.ok a)
    | .error e => cleanUp.run >>= fun _ => .done (.error e) := rfl
  rw [Returns, hrun, runs_bind_done]
  constructor
  · rintro ⟨e | a, s₁, hp, hrest⟩
    · obtain ⟨_, _, -, hdone⟩ := runs_bind_done.mp hrest
      obtain ⟨heq, -⟩ := runs_done hdone
      cases heq
    · obtain ⟨heq, rfl⟩ := runs_done hrest
      cases heq
      exact hp
  · exact fun h => ⟨.ok a, s', h, .refl _ _⟩

end Returns

/-! ### Programs and the steps that they may take -/

section Meets

variable (exec : (op : Op) → σ → Res op → σ → Prop) (Rely Own : σ → σ → Prop)

/-- An assertion that the steps of the other programs keep. -/
def Stable (P : σ → Prop) : Prop := ∀ s s', Rely s s' → P s → P s'

/-- From `P` on, the program takes its own steps only and ends with `Q`, whatever steps the
others take in between. -/
def Meets (Q : α → σ → Prop) : Prog Op Res α → (σ → Prop) → Prop
  | .done a, P => Stable Rely P ∧ ∀ s, P s → Q a s
  | .call op next, P => Stable Rely P ∧ ∃ P' : Res op → σ → Prop,
      (∀ s r s', P s → exec op s r s' → Own s s' ∧ P' r s') ∧ ∀ r, Meets Q (next r) (P' r)

variable {exec Rely Own}

theorem Meets.stable {Q : α → σ → Prop} {P : σ → Prop} {p : Prog Op Res α}
    (h : Meets exec Rely Own Q p P) : Stable Rely P := by
  cases p with
  | done a => exact h.1
  | call op next => exact h.1

/-- The rule for a program that has ended. -/
theorem meets_done {Q : α → σ → Prop} {P : σ → Prop} {a : α} (hP : Stable Rely P)
    (h : ∀ s, P s → Q a s) : Meets exec Rely Own Q (.done a : Prog Op Res α) P :=
  ⟨hP, h⟩

/-- The rule for an operation. -/
theorem meets_call {Q : α → σ → Prop} {P : σ → Prop} {op : Op} {next : Res op → Prog Op Res α}
    (hP : Stable Rely P) (P' : Res op → σ → Prop)
    (h : ∀ s r s', P s → exec op s r s' → Own s s' ∧ P' r s')
    (hnext : ∀ r, Meets exec Rely Own Q (next r) (P' r)) :
    Meets exec Rely Own Q (.call op next) P :=
  ⟨hP, P', h, hnext⟩

end Meets

section Fallible

variable {ε : Type w} {Ret : Op → Type w}
  {exec : (op : Op) → σ → Except ε (Ret op) → σ → Prop} {Rely Own : σ → σ → Prop}

/-- The rule for an operation that may fail, for a promise that an error always keeps. -/
theorem meets_attempt {Q : Except ε α → σ → Prop} {P : σ → Prop} {op : Op}
    {next : Ret op → Prog Op (fun op => Except ε (Ret op)) (Except ε α)}
    (herror : ∀ e s, Q (.error e) s) (hP : Stable Rely P) (P' : Ret op → σ → Prop)
    (hown : ∀ s r s', P s → exec op s r s' → Own s s')
    (hok : ∀ s a s', P s → exec op s (.ok a) s' → P' a s')
    (hnext : ∀ a, Meets exec Rely Own Q (next a) (P' a)) :
    Meets exec Rely Own Q (.call op (andThen next)) P := by
  refine meets_call hP (fun r s => ∀ a, r = .ok a → P' a s) ?_ ?_
  · rintro s r s' hs hexec
    refine ⟨hown s r s' hs hexec, ?_⟩
    rintro a rfl
    exact hok s a s' hs hexec
  · rintro (e | a)
    · exact meets_done (fun _ _ _ _ _ h => by cases h) fun s _ => herror e s
    · have h := hnext a
      have heq : (fun s => ∀ b, Except.ok (ε := ε) a = .ok b → P' b s) = P' a := by
        funext s
        simp
      rw [heq]
      exact h

end Fallible

/-! ### Pools of programs -/

section Pool

variable {ι : Type*} [DecidableEq ι] {A : ι → Type w}
  (exec : (op : Op) → σ → Res op → σ → Prop)

/-- Programs and the state that they share. -/
structure Pool (Op : Type u) (Res : Op → Type v) (A : ι → Type w) (σ : Type x) where
  progs : (i : ι) → Prog Op Res (A i)
  state : σ

namespace Pool

/-- A program of the pool goes on, in a new state. -/
def advance (pool : Pool Op Res A σ) (i : ι) (p : Prog Op Res (A i)) (s : σ) :
    Pool Op Res A σ :=
  ⟨Function.update pool.progs i p, s⟩

@[simp]
theorem advance_state (pool : Pool Op Res A σ) (i : ι) (p : Prog Op Res (A i)) (s : σ) :
    (pool.advance i p s).state = s := rfl

@[simp]
theorem advance_self (pool : Pool Op Res A σ) (i : ι) (p : Prog Op Res (A i)) (s : σ) :
    (pool.advance i p s).progs i = p :=
  Function.update_self ..

theorem advance_of_ne (pool : Pool Op Res A σ) {i j : ι} (h : j ≠ i) (p : Prog Op Res (A i))
    (s : σ) : (pool.advance i p s).progs j = pool.progs j :=
  Function.update_of_ne h ..

end Pool

/-- One program of a pool performed one operation. -/
structure Event (ι : Type*) (Op : Type u) (σ : Type x) where
  who : ι
  op : Op
  before : σ
  after : σ

/-- The runs of a pool: its programs perform their operations in any order. -/
inductive Run (start : Pool Op Res A σ) : List (Event ι Op σ) → Pool Op Res A σ → Prop
  | nil : Run start [] start
  | step {events : List (Event ι Op σ)} {pool : Pool Op Res A σ} {i : ι} {op : Op}
      {next : Res op → Prog Op Res (A i)} {r : Res op} {s : σ} (h : Run start events pool)
      (hi : pool.progs i = .call op next) (hexec : exec op pool.state r s) :
      Run start (events ++ [⟨i, op, pool.state, s⟩]) (pool.advance i (next r) s)

variable {exec} {start pool : Pool Op Res A σ} {events : List (Event ι Op σ)}

/-- The invariant rule: what a run does to the state is in every relation that its events are
in, if the relation is reflexive and transitive. -/
theorem Run.induction {T : σ → σ → Prop} (hrefl : ∀ s, T s s)
    (htrans : ∀ s s' s'', T s s' → T s' s'' → T s s'') (h : Run exec start events pool)
    (hT : ∀ e ∈ events, T e.before e.after) : T start.state pool.state := by
  induction h with
  | nil => exact hrefl _
  | step h hi hexec ih =>
    refine htrans _ _ _ (ih fun e he => hT e (List.mem_append_left _ he)) ?_
    exact hT _ (List.mem_append_right _ List.mem_cons_self)

variable {Rely Own : ι → σ → σ → Prop} {Q : (i : ι) → A i → σ → Prop}

/-- In a run of programs that meet their promises, they still do and every event is a step of
its program's own. -/
theorem Run.meets (h : Run exec start events pool)
    (hown : ∀ i j, j ≠ i → ∀ s s', Own i s s' → Rely j s s')
    (hstart : ∀ i, ∃ P, P start.state ∧ Meets exec (Rely i) (Own i) (Q i) (start.progs i) P) :
    (∀ i, ∃ P, P pool.state ∧ Meets exec (Rely i) (Own i) (Q i) (pool.progs i) P) ∧
      ∀ e ∈ events, Own e.who e.before e.after := by
  induction h with
  | nil => exact ⟨hstart, fun e he => absurd he List.not_mem_nil⟩
  | @step events pool i op next r s h hi hexec ih =>
    obtain ⟨hprogs, hevents⟩ := ih
    obtain ⟨P, hP, hmeets⟩ := hprogs i
    rw [hi] at hmeets
    obtain ⟨-, P', hstep, hnext⟩ := hmeets
    obtain ⟨hi', hP'⟩ := hstep _ _ _ hP hexec
    constructor
    · intro j
      by_cases hj : j = i
      · subst hj
        refine ⟨P' r, hP', ?_⟩
        rw [Pool.advance_self]
        exact hnext r
      · obtain ⟨Pj, hPj, hmeets⟩ := hprogs j
        refine ⟨Pj, hmeets.stable _ _ (hown i j hj _ _ hi') hPj, ?_⟩
        rw [Pool.advance_of_ne _ hj]
        exact hmeets
    · intro e he
      rcases List.mem_append.mp he with he | he
      · exact hevents e he
      · obtain rfl := List.mem_singleton.mp he
        exact hi'

/-- A program that ended in a run has kept its promise. -/
theorem Run.promise (h : Run exec start events pool)
    (hown : ∀ i j, j ≠ i → ∀ s s', Own i s s' → Rely j s s')
    (hstart : ∀ i, ∃ P, P start.state ∧ Meets exec (Rely i) (Own i) (Q i) (start.progs i) P)
    {i : ι} {a : A i} (hi : pool.progs i = .done a) : Q i a pool.state := by
  obtain ⟨P, hP, hmeets⟩ := (h.meets hown hstart).1 i
  rw [hi] at hmeets
  exact hmeets.2 _ hP

/-- What holds of every event of a run can be asked of its operations. -/
theorem Run.restrict_iff {C : Op → σ → σ → Prop} :
    Run (fun op s r s' => exec op s r s' ∧ C op s s') start events pool ↔
      Run exec start events pool ∧ ∀ e ∈ events, C e.op e.before e.after := by
  constructor
  · intro h
    induction h with
    | nil => exact ⟨.nil, fun e he => absurd he List.not_mem_nil⟩
    | step h hi hexec ih =>
      refine ⟨ih.1.step hi hexec.1, fun e he => ?_⟩
      rcases List.mem_append.mp he with he | he
      · exact ih.2 e he
      · obtain rfl := List.mem_singleton.mp he
        exact hexec.2
  · rintro ⟨h, hC⟩
    induction h with
    | nil => exact .nil
    | step h hi hexec ih =>
      have hlast := hC _ (List.mem_append_right _ List.mem_cons_self)
      exact (ih fun e he => hC e (List.mem_append_left _ he)).step hi ⟨hexec, hlast⟩

/-- An event of a run is an operation that was performed. -/
theorem Run.exec_of_mem (h : Run exec start events pool) {e : Event ι Op σ} (he : e ∈ events) :
    ∃ r, exec e.op e.before r e.after := by
  induction h with
  | nil => exact absurd he List.not_mem_nil
  | step h hi hexec ih =>
    rcases List.mem_append.mp he with he | he
    · exact ih he
    · obtain rfl := List.mem_singleton.mp he
      exact ⟨_, hexec⟩

/-- All operations of a run are of the kind that those of its programs are. -/
theorem Run.only {K : Op → Prop} (h : Run exec start events pool)
    (hstart : ∀ i, (start.progs i).Only K) :
    (∀ i, (pool.progs i).Only K) ∧ ∀ e ∈ events, K e.op := by
  induction h with
  | nil => exact ⟨hstart, fun e he => absurd he List.not_mem_nil⟩
  | @step events pool i op next r s h hi hexec ih =>
    obtain ⟨hprogs, hevents⟩ := ih
    have honly := hprogs i
    rw [hi] at honly
    refine ⟨fun j => ?_, fun e he => ?_⟩
    · by_cases hj : j = i
      · subst hj
        rw [Pool.advance_self]
        exact honly.2 r
      · rw [Pool.advance_of_ne _ hj]
        exact hprogs j
    · rcases List.mem_append.mp he with he | he
      · exact hevents e he
      · obtain rfl := List.mem_singleton.mp he
        exact honly.1

/-- A program of a pool goes on, on its own for a while. -/
theorem Run.runs (h : Run exec start events pool) {i : ι} {q : Prog Op Res (A i)} {s : σ}
    (hruns : Prog.Runs exec (pool.progs i) pool.state q s) :
    ∃ more, Run exec start (events ++ more) (pool.advance i q s) := by
  generalize hp : pool.progs i = p at hruns
  generalize hs : pool.state = s₀ at hruns
  induction hruns generalizing events pool with
  | refl p s =>
    subst hp hs
    refine ⟨[], ?_⟩
    have hpool : pool.advance i (pool.progs i) pool.state = pool := by
      rw [Pool.advance, Function.update_eq_self]
    rw [hpool, List.append_nil]
    exact h
  | step hexec _ ih =>
    subst hs
    obtain ⟨more, hrun⟩ := ih (h.step hp hexec) (Pool.advance_self ..) rfl
    rw [List.append_assoc, Pool.advance, Pool.advance, Function.update_idem] at hrun
    exact ⟨_, hrun⟩

/-- A program that ended with a result has not performed an operation that forgoes it. -/
theorem Run.not_performed {i : ι} {W : Op → Prop} {B : A i → Prop}
    (h : Run exec start events pool) (hstart : (start.progs i).Forgoes W B) :
    (pool.progs i).Forgoes W B ∧
      ((∃ e ∈ events, e.who = i ∧ W e.op) → (pool.progs i).Avoids B) := by
  induction h with
  | nil => exact ⟨hstart, fun ⟨e, he, _⟩ => absurd he List.not_mem_nil⟩
  | @step events pool j op next r s h hj hexec ih =>
    obtain ⟨hforgoes, havoids⟩ := ih
    by_cases hij : i = j
    · subst hij
      rw [hj] at hforgoes havoids
      rw [Pool.advance_self]
      refine ⟨(hforgoes r).2, ?_⟩
      rintro ⟨e, he, hwho, hW⟩
      rcases List.mem_append.mp he with he | he
      · exact havoids ⟨e, he, hwho, hW⟩ r
      · obtain rfl := List.mem_singleton.mp he
        exact (hforgoes r).1 hW
    · rw [Pool.advance_of_ne _ hij]
      refine ⟨hforgoes, ?_⟩
      rintro ⟨e, he, hwho, hW⟩
      rcases List.mem_append.mp he with he | he
      · exact havoids ⟨e, he, hwho, hW⟩
      · obtain rfl := List.mem_singleton.mp he
        exact absurd hwho.symm hij

/-- A program that ended with a result has not taken a step that it settles. -/
theorem Run.settled {i : ι} {T : σ → σ → Prop} {B : A i → Prop}
    (h : Run exec start events pool) (hstart : (start.progs i).Settles exec T B) :
    (pool.progs i).Settles exec T B ∧
      ((∃ e ∈ events, e.who = i ∧ ¬ T e.before e.after) → (pool.progs i).Avoids B) := by
  induction h with
  | nil => exact ⟨hstart, fun ⟨e, he, _⟩ => absurd he List.not_mem_nil⟩
  | @step events pool j op next r s h hj hexec ih =>
    obtain ⟨hsettles, havoids⟩ := ih
    by_cases hij : i = j
    · subst hij
      rw [hj] at hsettles havoids
      rw [Pool.advance_self]
      refine ⟨(hsettles r).2, ?_⟩
      rintro ⟨e, he, hwho, hT⟩
      rcases List.mem_append.mp he with he | he
      · exact havoids ⟨e, he, hwho, hT⟩ r
      · obtain rfl := List.mem_singleton.mp he
        exact (hsettles r).1 _ _ hexec hT
    · rw [Pool.advance_of_ne _ hij]
      refine ⟨hsettles, ?_⟩
      rintro ⟨e, he, hwho, hT⟩
      rcases List.mem_append.mp he with he | he
      · exact havoids ⟨e, he, hwho, hT⟩
      · obtain rfl := List.mem_singleton.mp he
        exact absurd hwho.symm hij

end Pool

end Interleaved
