import Mathlib.Tactic.Choose
import Maw.Library.Interleaved

/-!
# Pre- and postconditions of interleaved programs

A triple says what a program that may fail makes of an assertion, with a postcondition for its
values and one for its errors, while others take steps of their own between its operations. All
assertions are kept by the steps of the others. An assertion that the steps of both sides keep
holds wherever the program is interrupted.

## Main definitions

* `Triple` — pre- and postconditions.
* `Prog.RunsAmid` — the partial runs of a program amid the steps of others.

## Main results

* `triple_attempt`, `triple_bind`, `triple_onError` — the rules.
* `Prog.RunsAmid.invariant` — an assertion that is kept by all steps.
* `Prog.Safe.runs` — an invariant of a program on its own.
-/

namespace Interleaved

universe u v w x

variable {Op : Type u} {Res : Op → Type v} {ε α β : Type w} {Ret : Op → Type w} {σ : Type x}

/-- Perform a program; `none` stands for any of its errors. -/
def asOption (p : Fallible ε Op Ret α) : Fallible ε Op Ret (Option α) :=
  ExceptT.mk (p.run >>= fun r => .done (.ok r.toOption))

theorem only_asOption {P : Op → Prop} {p : Fallible ε Op Ret α} (hp : p.run.Only P) :
    (asOption p).run.Only P :=
  Prog.Only.bind hp fun _ => trivial

theorem alone_asOption (exec : (op : Op) → σ → Except ε (Ret op) × σ) (p : Fallible ε Op Ret α)
    (s : σ) : (asOption p).alone exec s = (.ok (p.alone exec s).1.toOption, (p.alone exec s).2) :=
  Prog.eval_bind exec p.run _ s

theorem returns_asOption {exec : (op : Op) → σ → Except ε (Ret op) → σ → Prop}
    {p : Fallible ε Op Ret α} {s s' : σ} {o : Option α} :
    Returns exec (asOption p) s o s' ↔
      ∃ r, Prog.Runs exec p.run s (.done r) s' ∧ o = r.toOption := by
  have hrun : (asOption p).run = p.run >>= fun r => .done (.ok r.toOption) := rfl
  rw [Returns, hrun, runs_bind_done]
  constructor
  · rintro ⟨r, s₁, hp, hdone⟩
    obtain ⟨heq, rfl⟩ := runs_done hdone
    exact ⟨r, hp, Except.ok.inj (Prog.done.inj heq)⟩
  · rintro ⟨r, hp, rfl⟩
    exact ⟨r, s', hp, .refl _ _⟩

theorem not_runs_asOption_error {exec : (op : Op) → σ → Except ε (Ret op) → σ → Prop}
    {p : Fallible ε Op Ret α} {s s' : σ} {e : ε} :
    ¬ Prog.Runs exec (asOption p).run s (.done (.error e)) s' := by
  intro h
  have hrun : (asOption p).run = p.run >>= fun r => .done (.ok r.toOption) := rfl
  rw [hrun, runs_bind_done] at h
  obtain ⟨r, s₁, -, hdone⟩ := h
  obtain ⟨heq, -⟩ := runs_done hdone
  cases heq

/-- Perform a program and, if it fails, another one that is given its error. -/
def handle (p : Fallible ε Op Ret α) (handler : ε → Fallible ε Op Ret α) : Fallible ε Op Ret α :=
  ExceptT.mk (p.run >>= fun r =>
    match r with
    | .ok a => .done (.ok a)
    | .error e => (handler e).run)

/-- How two programs end, one after the other. -/
theorem runs_bind_cases {exec : (op : Op) → σ → Except ε (Ret op) → σ → Prop}
    {p : Fallible ε Op Ret α} {f : α → Fallible ε Op Ret β} {s s' : σ} {r : Except ε β}
    (h : Prog.Runs exec (p >>= f).run s (.done r) s') :
    (∃ a s₁, Returns exec p s a s₁ ∧ Prog.Runs exec (f a).run s₁ (.done r) s') ∨
      ∃ e, Prog.Runs exec p.run s (.done (.error e)) s' ∧ r = .error e := by
  have hrun : (p >>= f).run = p.run >>= ExceptT.bindCont f := rfl
  rw [hrun, runs_bind_done] at h
  obtain ⟨a, s₁, hp, hf⟩ := h
  cases a with
  | ok a => exact .inl ⟨a, s₁, hp, hf⟩
  | error e =>
    obtain ⟨heq, rfl⟩ := runs_done hf
    exact .inr ⟨e, hp, Prog.done.inj heq⟩

/-- How a program ends after one that ends with a value. -/
theorem runs_bind_of_ok {exec : (op : Op) → σ → Except ε (Ret op) → σ → Prop}
    {p : Fallible ε Op Ret α} {f : α → Fallible ε Op Ret β} {s s' : σ} {r : Except ε β}
    {Q : α → σ → Prop}
    (hp : ∀ r s₁, Prog.Runs exec p.run s (.done r) s₁ → ∃ a, r = .ok a ∧ Q a s₁)
    (h : Prog.Runs exec (p >>= f).run s (.done r) s') :
    ∃ a s₁, Q a s₁ ∧ Prog.Runs exec (f a).run s₁ (.done r) s' := by
  rcases runs_bind_cases h with ⟨a, s₁, hfirst, hrest⟩ | ⟨e, hfirst, -⟩
  · obtain ⟨a', heq, hQ⟩ := hp _ _ hfirst
    obtain rfl := Except.ok.inj heq
    exact ⟨a, s₁, hQ, hrest⟩
  · obtain ⟨a, heq, -⟩ := hp _ _ hfirst
    cases heq

/-- The same with a known value. -/
theorem runs_bind_of_eq {exec : (op : Op) → σ → Except ε (Ret op) → σ → Prop}
    {p : Fallible ε Op Ret α} {f : α → Fallible ε Op Ret β} {s s' : σ} {r : Except ε β} {a : α}
    {Q : σ → Prop}
    (hp : ∀ r s₁, Prog.Runs exec p.run s (.done r) s₁ → r = .ok a ∧ Q s₁)
    (h : Prog.Runs exec (p >>= f).run s (.done r) s') :
    ∃ s₁, Q s₁ ∧ Prog.Runs exec (f a).run s₁ (.done r) s' := by
  have hvalue (r : Except ε α) (s₁ : σ) (hrun : Prog.Runs exec p.run s (.done r) s₁) :
      ∃ b, r = .ok b ∧ b = a ∧ Q s₁ := ⟨a, (hp r s₁ hrun).1, rfl, (hp r s₁ hrun).2⟩
  obtain ⟨b, s₁, ⟨rfl, hQ⟩, hrest⟩ := runs_bind_of_ok (Q := fun b s₁ => b = a ∧ Q s₁) hvalue h
  exact ⟨s₁, hQ, hrest⟩

/-- How a program ends whose errors are followed by another one. -/
theorem runs_onError_cases {exec : (op : Op) → σ → Except ε (Ret op) → σ → Prop}
    {p : Fallible ε Op Ret α} {cleanUp : Fallible ε Op Ret PUnit} {s s' : σ} {r : Except ε α}
    (h : Prog.Runs exec (onError p cleanUp).run s (.done r) s') :
    (∃ a, r = .ok a ∧ Returns exec p s a s') ∨
      ∃ e s₁ r', r = .error e ∧ Prog.Runs exec p.run s (.done (.error e)) s₁ ∧
        Prog.Runs exec cleanUp.run s₁ (.done r') s' := by
  obtain ⟨r₀, s₁, hp, hrest⟩ := runs_bind_done.mp h
  cases r₀ with
  | ok a =>
    obtain ⟨heq, rfl⟩ := runs_done hrest
    exact .inl ⟨a, Prog.done.inj heq, hp⟩
  | error e =>
    obtain ⟨r', s₂, hcleanUp, hdone⟩ := runs_bind_done.mp hrest
    obtain ⟨heq, rfl⟩ := runs_done hdone
    exact .inr ⟨e, s₁, r', Prog.done.inj heq, hp, hcleanUp⟩

theorem runs_ignoreError_cases {exec : (op : Op) → σ → Except ε (Ret op) → σ → Prop}
    {p : Fallible ε Op Ret α} {s s' : σ} {r : Except ε PUnit}
    (h : Prog.Runs exec (ignoreError p).run s (.done r) s') :
    r = .ok ⟨⟩ ∧ ∃ r₀, Prog.Runs exec p.run s (.done r₀) s' := by
  obtain ⟨r₀, s₁, hp, hdone⟩ := runs_bind_done.mp h
  obtain ⟨heq, rfl⟩ := runs_done hdone
  exact ⟨Prog.done.inj heq, r₀, hp⟩

/-- The runs of one operation to its end. -/
theorem runs_attempt_done {exec : (op : Op) → σ → Except ε (Ret op) → σ → Prop} {op : Op}
    {s s' : σ} {r : Except ε (Ret op)} :
    Prog.Runs exec (attempt op : Fallible ε Op Ret (Ret op)).run s (.done r) s' ↔
      exec op s r s' := by
  constructor
  · intro h
    rw [run_attempt] at h
    rcases runs_attempt h with ⟨a, s₁, hexec, hrest⟩ | ⟨e, hexec, rfl⟩
    · obtain ⟨heq, rfl⟩ := runs_done hrest
      rwa [Prog.done.inj heq]
    · exact hexec
  · intro h
    rw [run_attempt]
    refine .step h ?_
    cases r <;> exact .refl _ _

/-- How a program ends that starts with an operation. -/
theorem runs_attempt_bind {exec : (op : Op) → σ → Except ε (Ret op) → σ → Prop} {op : Op}
    {f : Ret op → Fallible ε Op Ret β} {s s' : σ} {r : Except ε β}
    (h : Prog.Runs exec (attempt op >>= f).run s (.done r) s') :
    (∃ a s₁, exec op s (.ok a) s₁ ∧ Prog.Runs exec (f a).run s₁ (.done r) s') ∨
      ∃ e, exec op s (.error e) s' ∧ r = .error e := by
  rcases runs_bind_cases h with ⟨a, s₁, hfirst, hrest⟩ | ⟨e, hfirst, hr⟩
  · exact .inl ⟨a, s₁, returns_attempt.mp hfirst, hrest⟩
  · exact .inr ⟨e, runs_attempt_done.mp hfirst, hr⟩

/-- How a program ends that starts with an operation whose error is ignored. -/
theorem runs_ignoreError_bind {exec : (op : Op) → σ → Except ε (Ret op) → σ → Prop} {op : Op}
    {f : PUnit → Fallible ε Op Ret β} {s s' : σ} {r : Except ε β}
    (h : Prog.Runs exec (ignoreError (attempt op) >>= f).run s (.done r) s') :
    ∃ r₀ s₁, exec op s r₀ s₁ ∧ Prog.Runs exec (f ⟨⟩).run s₁ (.done r) s' := by
  rcases runs_bind_cases h with ⟨_, s₁, hfirst, hrest⟩ | ⟨e, hfirst, hr⟩
  · obtain ⟨-, r₀, hrun⟩ := runs_ignoreError_cases hfirst
    exact ⟨r₀, s₁, runs_attempt_done.mp hrun, hrest⟩
  · obtain ⟨heq, -⟩ := runs_ignoreError_cases hfirst
    cases heq

/-- A program that starts with an operation runs on with its value. -/
theorem attempt_bind_runs {exec : (op : Op) → σ → Except ε (Ret op) → σ → Prop} {op : Op}
    {f : Ret op → Fallible ε Op Ret β} {s s₁ s' : σ} {a : Ret op}
    {q : Prog Op (fun op => Except ε (Ret op)) (Except ε β)} (h : exec op s (.ok a) s₁)
    (hf : Prog.Runs exec (f a).run s₁ q s') : Prog.Runs exec (attempt op >>= f).run s q s' :=
  (returns_attempt.mpr h).bind_runs hf

/-- A program that starts with an operation whose error is ignored runs on in any case. -/
theorem ignoreError_bind_runs {exec : (op : Op) → σ → Except ε (Ret op) → σ → Prop} {op : Op}
    {f : PUnit → Fallible ε Op Ret β} {s s₁ s' : σ} {r : Except ε (Ret op)}
    {q : Prog Op (fun op => Except ε (Ret op)) (Except ε β)} (h : exec op s r s₁)
    (hf : Prog.Runs exec (f ⟨⟩).run s₁ q s') :
    Prog.Runs exec (ignoreError (attempt op) >>= f).run s q s' :=
  (returns_ignoreError.mpr ⟨r, runs_attempt_done.mpr h⟩).bind_runs hf


/-! ### Weakening and sequencing of promises -/

section Meets

variable {exec : (op : Op) → σ → Res op → σ → Prop} {Rely Own : σ → σ → Prop}
  {P P' : σ → Prop}

/-- A stronger assertion to start from. -/
theorem Meets.of_imp {Q : α → σ → Prop} {p : Prog Op Res α} (h : Meets exec Rely Own Q p P)
    (hP' : Stable Rely P') (himp : ∀ s, P' s → P s) : Meets exec Rely Own Q p P' := by
  cases p with
  | done a => exact ⟨hP', fun s hs => h.2 s (himp s hs)⟩
  | call op next =>
    obtain ⟨-, Pnext, hstep, hnext⟩ := h
    exact ⟨hP', Pnext, fun s r s' hs => hstep s r s' (himp s hs), hnext⟩

/-- A weaker promise. -/
theorem Meets.imp {Q Q' : α → σ → Prop} {p : Prog Op Res α} (h : Meets exec Rely Own Q p P)
    (hQ : ∀ a s, Q a s → Q' a s) : Meets exec Rely Own Q' p P := by
  induction p generalizing P with
  | done a => exact ⟨h.1, fun s hs => hQ a s (h.2 s hs)⟩
  | call op next ih =>
    obtain ⟨hP, Pnext, hstep, hnext⟩ := h
    exact ⟨hP, Pnext, hstep, fun r => ih r (hnext r)⟩

/-- A program on its own keeps its promise. -/
theorem Meets.runs {Q : α → σ → Prop} {p : Prog Op Res α} (h : Meets exec Rely Own Q p P)
    {s s' : σ} {a : α} (hP : P s) (hrun : Prog.Runs exec p s (.done a) s') : Q a s' := by
  generalize hq : Prog.done a = q at hrun
  induction hrun generalizing P with
  | refl p s =>
    subst hq
    exact h.2 s hP
  | step hexec _ ih =>
    obtain ⟨-, Pnext, hstep, hnext⟩ := h
    exact ih (hnext _) (hstep _ _ _ hP hexec).2 hq

/-- Nothing can start from no state. -/
theorem meets_false (Q : α → σ → Prop) (p : Prog Op Res α) :
    Meets exec Rely Own Q p fun _ => False := by
  induction p with
  | done a => exact ⟨fun _ _ _ h => h, fun _ h => h.elim⟩
  | call op next ih => exact ⟨fun _ _ _ h => h, fun _ _ => False, fun _ _ _ h => h.elim, ih⟩

/-- A program that starts from any of some assertions. -/
theorem meets_exists {ξ : Sort*} {P : ξ → σ → Prop} {Q : α → σ → Prop} {p : Prog Op Res α}
    (h : ∀ x, Meets exec Rely Own Q p (P x)) :
    Meets exec Rely Own Q p fun s => ∃ x, P x s := by
  induction p generalizing P with
  | done a =>
    refine ⟨?_, ?_⟩
    · rintro s s' hs ⟨x, hx⟩
      exact ⟨x, (h x).1 s s' hs hx⟩
    · rintro s ⟨x, hx⟩
      exact (h x).2 s hx
  | call op next ih =>
    choose hP P' hstep hnext using h
    refine ⟨?_, fun r s => ∃ x, P' x r s, ?_, fun r => ih r fun x => hnext x r⟩
    · rintro s s' hs ⟨x, hx⟩
      exact ⟨x, hP x s s' hs hx⟩
    · rintro s r s' ⟨x, hx⟩ hexec
      obtain ⟨hown, hx'⟩ := hstep x s r s' hx hexec
      exact ⟨hown, x, hx'⟩

/-- One program after the other. -/
theorem meets_bind {Q : α → σ → Prop} {Q' : β → σ → Prop} {p : Prog Op Res α}
    {f : α → Prog Op Res β} (hp : Meets exec Rely Own Q p P)
    (hf : ∀ a, Meets exec Rely Own Q' (f a) (Q a)) : Meets exec Rely Own Q' (p >>= f) P := by
  induction p generalizing P with
  | done a => exact (hf a).of_imp hp.1 hp.2
  | call op next ih =>
    obtain ⟨hP, Pnext, hstep, hnext⟩ := hp
    exact ⟨hP, Pnext, hstep, fun r => ih r (hnext r)⟩

/-- The frame rule: an assertion that all operations of a program keep. -/
theorem meets_of_only {K : Op → Prop} {I : σ → Prop} (hI : Stable Rely I)
    (hop : ∀ op s r s', K op → I s → exec op s r s' → Own s s' ∧ I s') {p : Prog Op Res α}
    (hp : p.Only K) : Meets exec Rely Own (fun _ => I) p I := by
  induction p with
  | done a => exact ⟨hI, fun _ hs => hs⟩
  | call op next ih =>
    exact ⟨hI, fun _ => I, fun s r s' => hop op s r s' hp.1, fun r => ih r (hp.2 r)⟩

end Meets

/-! ### Triples -/

section Triple

/-- The postcondition of a value, or the one of an error. -/
def Ends (R : α → σ → Prop) (E : σ → Prop) : Except ε α → σ → Prop
  | .ok a => R a
  | .error _ => E

variable (exec : (op : Op) → σ → Except ε (Ret op) → σ → Prop) (Rely Own : σ → σ → Prop)

/-- From the precondition on, the program takes its own steps only and ends with one of the
postconditions. -/
def Triple (P : σ → Prop) (p : Fallible ε Op Ret α) (R : α → σ → Prop) (E : σ → Prop) : Prop :=
  Meets exec Rely Own (Ends R E) p.run P

variable {exec Rely Own} {P P' E E' : σ → Prop} {R : α → σ → Prop} {R' : β → σ → Prop}
  {p : Fallible ε Op Ret α} {f : α → Fallible ε Op Ret β}

theorem Triple.of_imp (h : Triple exec Rely Own P p R E) (hP' : Stable Rely P')
    (himp : ∀ s, P' s → P s) : Triple exec Rely Own P' p R E :=
  Meets.of_imp h hP' himp

/-- Weaker postconditions. -/
theorem Triple.imp {R' : α → σ → Prop} (h : Triple exec Rely Own P p R E)
    (hR : ∀ a s, R a s → R' a s) (hE : ∀ s, E s → E' s) : Triple exec Rely Own P p R' E' := by
  refine Meets.imp h ?_
  rintro (e | a) s hs
  · exact hE s hs
  · exact hR a s hs

/-- The frame rule for triples. -/
theorem triple_of_only {K : Op → Prop} (hP : Stable Rely P)
    (hop : ∀ op s r s', K op → P s → exec op s r s' → Own s s' ∧ P s') (hE : ∀ s, P s → E s)
    (hp : p.run.Only K) : Triple exec Rely Own P p (fun _ => P) E := by
  refine (meets_of_only hP hop hp).imp ?_
  rintro (e | a) s hs
  · exact hE s hs
  · exact hs

theorem triple_pure {a : α} (hP : Stable Rely P) (h : ∀ s, P s → R a s) :
    Triple exec Rely Own P (pure a : Fallible ε Op Ret α) R E :=
  meets_done hP h

/-- A fact that is part of the precondition can be assumed. -/
theorem triple_of_fact {c : Prop} (h : c → Triple exec Rely Own P p R E) :
    Triple exec Rely Own (fun s => c ∧ P s) p R E := by
  by_cases hc : c
  · simpa only [hc, true_and] using h hc
  · have hfalse : (fun s => c ∧ P s) = fun _ => False := funext fun s => propext (by simp [hc])
    rw [Triple, hfalse]
    exact meets_false _ _

/-- A precondition that holds of some value. -/
theorem triple_exists {ξ : Sort*} {P : ξ → σ → Prop} (h : ∀ x, Triple exec Rely Own (P x) p R E) :
    Triple exec Rely Own (fun s => ∃ x, P x s) p R E :=
  meets_exists h

theorem triple_throw {e : ε} (hP : Stable Rely P) (h : ∀ s, P s → E s) :
    Triple exec Rely Own P (throw e : Fallible ε Op Ret α) R E :=
  meets_done hP h

theorem triple_attempt {op : Op} {R : Ret op → σ → Prop} (hP : Stable Rely P)
    (hR : ∀ a, Stable Rely (R a)) (hE : Stable Rely E)
    (h : ∀ s r s', P s → exec op s r s' → Own s s' ∧ Ends R E r s') :
    Triple exec Rely Own P (attempt op) R E := by
  refine meets_call hP (Ends R E) h ?_
  rintro (e | a)
  · exact meets_done hE fun _ hs => hs
  · exact meets_done (hR a) fun _ hs => hs

theorem triple_bind (hE : Stable Rely E) (hp : Triple exec Rely Own P p R E)
    (hf : ∀ a, Triple exec Rely Own (R a) (f a) R' E) :
    Triple exec Rely Own P (p >>= f) R' E := by
  refine meets_bind hp ?_
  rintro (e | a)
  · exact meets_done hE fun _ hs => hs
  · exact hf a

/-- What is done on errors starts from the postcondition of the errors. -/
theorem triple_onError {cleanUp : Fallible ε Op Ret PUnit} (hR : ∀ a, Stable Rely (R a))
    (hp : Triple exec Rely Own P p R E)
    (hcleanUp : Meets exec Rely Own (fun _ => E') cleanUp.run E) (hE' : Stable Rely E') :
    Triple exec Rely Own P (onError p cleanUp) R E' := by
  refine meets_bind hp ?_
  rintro (e | a)
  · exact meets_bind hcleanUp fun _ => meets_done hE' fun _ hs => hs
  · exact meets_done (hR a) fun _ hs => hs

/-- What is done with the errors starts from their postcondition. -/
theorem triple_handle {handler : ε → Fallible ε Op Ret α} (hR : ∀ a, Stable Rely (R a))
    (hp : Triple exec Rely Own P p R E)
    (hhandler : ∀ e, Triple exec Rely Own E (handler e) R E') :
    Triple exec Rely Own P (handle p handler) R E' := by
  refine meets_bind hp ?_
  rintro (e | a)
  · exact hhandler e
  · exact meets_done (hR a) fun _ hs => hs

/-- After a program of which the errors are passed over, one of the postconditions holds. -/
theorem triple_asOption {E₀ : σ → Prop} (hR : ∀ a, Stable Rely (R a)) (hE : Stable Rely E)
    (hp : Triple exec Rely Own P p R E) :
    Triple exec Rely Own P (asOption p) (fun o s => o.elim (E s) (R · s)) E₀ := by
  refine meets_bind hp ?_
  rintro (e | a)
  · exact meets_done hE fun _ hs => hs
  · exact meets_done (hR a) fun _ hs => hs

theorem triple_ofExcept {r : Except ε α} (hP : Stable Rely P)
    (h : ∀ s, P s → Ends R E r s) :
    Triple exec Rely Own P (ofExcept r : Fallible ε Op Ret α) R E := by
  rcases r with e | a
  · exact meets_done hP h
  · exact meets_done hP h

theorem triple_ignoreError {E₀ : σ → Prop} (hE₀ : Stable Rely E₀)
    (hp : Meets exec Rely Own (fun _ => E₀) p.run P) :
    Triple exec Rely Own P (ignoreError p) (fun _ => E₀) E := by
  exact meets_bind hp fun _ => meets_done hE₀ fun _ hs => hs

end Triple

/-! ### Runs amid the steps of others -/

section Amid

variable (exec : (op : Op) → σ → Res op → σ → Prop) (Env : σ → σ → Prop)

/-- The partial runs of a program between whose operations others take their steps. -/
inductive Prog.RunsAmid : Prog Op Res α → σ → Prog Op Res α → σ → Prop
  | refl (p : Prog Op Res α) (s : σ) : RunsAmid p s p s
  | step {op : Op} {next : Res op → Prog Op Res α} {r : Res op} {s s' s'' : σ}
      {q : Prog Op Res α} (h : exec op s r s') (hrun : RunsAmid (next r) s' q s'') :
      RunsAmid (.call op next) s q s''
  | env {p q : Prog Op Res α} {s s' s'' : σ} (h : Env s s') (hrun : RunsAmid p s' q s'') :
      RunsAmid p s q s''

variable {exec Env}

/-- The invariant rule: an assertion that the program and the others keep holds in every state
of a run. -/
theorem Prog.RunsAmid.invariant {I : σ → Prop} {Q : α → σ → Prop} {p q : Prog Op Res α}
    {s s' : σ} (h : RunsAmid exec Env p s q s') (henv : ∀ s s', Env s s' → I s → I s')
    {P : σ → Prop} (hmeets : Meets exec Env (fun _ => I) Q p P) (hP : P s) (hI : I s) : I s' := by
  induction h generalizing P with
  | refl p s => exact hI
  | step hexec _ ih =>
    obtain ⟨-, Pnext, hstep, hnext⟩ := hmeets
    obtain ⟨hI', hP'⟩ := hstep _ _ _ hP hexec
    exact ih (hnext _) hP' hI'
  | env hstep _ ih => exact ih hmeets (hmeets.stable _ _ hstep hP) (henv _ _ hstep hI)

/-- In a run, the program still meets its promise, and what became of the state is in every
reflexive and transitive relation that all steps are in. -/
theorem Prog.RunsAmid.meets {Own T : σ → σ → Prop} {Q : α → σ → Prop} {p q : Prog Op Res α}
    {s s' : σ} (h : RunsAmid exec Env p s q s') (hrefl : ∀ s, T s s)
    (htrans : ∀ s s' s'', T s s' → T s' s'' → T s s'') (hown : ∀ s s', Own s s' → T s s')
    (henv : ∀ s s', Env s s' → T s s') {P : σ → Prop} (hmeets : Meets exec Env Own Q p P)
    (hP : P s) : T s s' ∧ ∃ P', P' s' ∧ Meets exec Env Own Q q P' := by
  induction h generalizing P with
  | refl p s => exact ⟨hrefl s, P, hP, hmeets⟩
  | step hexec _ ih =>
    obtain ⟨-, Pnext, hstep, hnext⟩ := hmeets
    obtain ⟨hT, hP'⟩ := hstep _ _ _ hP hexec
    exact (ih (hnext _) hP').imp_left (htrans _ _ _ (hown _ _ hT))
  | env hstep _ ih =>
    exact (ih hmeets (hmeets.stable _ _ hstep hP)).imp_left (htrans _ _ _ (henv _ _ hstep))

/-- A run of a program on its own is one in which the others take no steps. -/
theorem Prog.Runs.amid {p q : Prog Op Res α} {s s' : σ} (h : Runs exec p s q s') :
    RunsAmid exec Env p s q s' := by
  induction h with
  | refl p s => exact .refl p s
  | step hexec _ ih => exact .step hexec ih

/-- More steps, more runs. -/
theorem Prog.RunsAmid.mono {exec' : (op : Op) → σ → Res op → σ → Prop} {Env' : σ → σ → Prop}
    {p q : Prog Op Res α} {s s' : σ} (h : RunsAmid exec Env p s q s')
    (hexec : ∀ op s r s', exec op s r s' → exec' op s r s') (henv : ∀ s s', Env s s' → Env' s s') :
    RunsAmid exec' Env' p s q s' := by
  induction h with
  | refl p s => exact .refl p s
  | step hstep _ ih => exact .step (hexec _ _ _ _ hstep) ih
  | env hstep _ ih => exact .env (henv _ _ hstep) ih

/-- One program after the other. -/
theorem Prog.RunsAmid.bind {p : Prog Op Res α} {f : α → Prog Op Res β} {q : Prog Op Res β} {a : α}
    {s s' s'' : σ} (h : RunsAmid exec Env p s (.done a) s')
    (h' : RunsAmid exec Env (f a) s' q s'') :
    RunsAmid exec Env (p >>= f) s q s'' := by
  generalize hr : Prog.done a = r at h
  induction h with
  | refl p s =>
    subst hr
    exact h'
  | step hexec _ ih => exact .step hexec (ih h' hr)
  | env hstep _ ih => exact .env hstep (ih h' hr)

end Amid

section AmidFallible

variable {exec : (op : Op) → σ → Except ε (Ret op) → σ → Prop} {Env : σ → σ → Prop} {s s' s'' : σ}

theorem runsAmid_attempt {op : Op} {a : Ret op} (h : exec op s (.ok a) s') :
    Prog.RunsAmid exec Env (attempt op).run s (.done (.ok a)) s' :=
  .step h (.refl _ _)

theorem runsAmid_bind {p : Fallible ε Op Ret α} {f : α → Fallible ε Op Ret β} {a : α}
    {q : Prog Op (fun op => Except ε (Ret op)) (Except ε β)}
    (h : Prog.RunsAmid exec Env p.run s (.done (.ok a)) s')
    (h' : Prog.RunsAmid exec Env (f a).run s' q s'') :
    Prog.RunsAmid exec Env (p >>= f).run s q s'' :=
  Prog.RunsAmid.bind h h'

/-- A state that the second program comes to is one that both come to. -/
theorem exists_runsAmid_bind {p : Fallible ε Op Ret α} {f : α → Fallible ε Op Ret β} {a : α}
    (h : Prog.RunsAmid exec Env p.run s (.done (.ok a)) s')
    (h' : ∃ q, Prog.RunsAmid exec Env (f a).run s' q s'') :
    ∃ q, Prog.RunsAmid exec Env (p >>= f).run s q s'' := by
  obtain ⟨q, h'⟩ := h'
  exact ⟨q, runsAmid_bind h h'⟩

theorem runsAmid_onError {p : Fallible ε Op Ret α} {cleanUp : Fallible ε Op Ret PUnit} {a : α}
    (h : Prog.RunsAmid exec Env p.run s (.done (.ok a)) s') :
    Prog.RunsAmid exec Env (onError p cleanUp).run s (.done (.ok a)) s' :=
  Prog.RunsAmid.bind h (.refl _ _)

end AmidFallible

/-! ### Programs on their own -/

section Safe

variable (exec : (op : Op) → σ → Res op → σ → Prop) (I : σ → Prop)

/-- Wherever the program is interrupted, the invariant holds, and the postcondition if it ended. -/
def Prog.Safe (Q : α → σ → Prop) : Prog Op Res α → σ → Prop
  | .done a, s => I s ∧ Q a s
  | .call op next, s => I s ∧ ∀ r s', exec op s r s' → (next r).Safe Q s'

variable {exec I} {Q : α → σ → Prop} {p q : Prog Op Res α} {s s' : σ}

theorem Prog.Safe.inv (h : p.Safe exec I Q s) : I s := by
  cases p with
  | done a => exact h.1
  | call op next => exact h.1

theorem Prog.Safe.runs (h : p.Safe exec I Q s) (hrun : Runs exec p s q s') :
    q.Safe exec I Q s' := by
  induction hrun with
  | refl p s => exact h
  | step hexec _ ih => exact ih (h.2 _ _ hexec)

theorem Prog.Safe.imp {I' : σ → Prop} {Q' : α → σ → Prop} (h : p.Safe exec I Q s)
    (hI : ∀ s, I s → I' s) (hQ : ∀ a s, I s → Q a s → Q' a s) : p.Safe exec I' Q' s := by
  induction p generalizing s with
  | done a => exact ⟨hI s h.1, hQ a s h.1 h.2⟩
  | call op next ih => exact ⟨hI s h.1, fun r s' hexec => ih r (h.2 r s' hexec)⟩

/-- One program after the other. -/
theorem Prog.Safe.bind {Q : β → σ → Prop} {f : α → Prog Op Res β}
    (h : p.Safe exec I (fun a s => (f a).Safe exec I Q s) s) : (p >>= f).Safe exec I Q s := by
  induction p generalizing s with
  | done a => exact h.2
  | call op next ih => exact ⟨h.1, fun r s' hexec => ih r (h.2 r s' hexec)⟩

end Safe

section SafeFallible

variable {exec : (op : Op) → σ → Except ε (Ret op) → σ → Prop} {I : σ → Prop}
  {Q : Except ε β → σ → Prop} {op : Op} {s : σ}

theorem safe_attempt_bind {f : Ret op → Fallible ε Op Ret β} (hI : I s)
    (hok : ∀ a s', exec op s (.ok a) s' → (f a).run.Safe exec I Q s')
    (herror : ∀ e s', exec op s (.error e) s' → I s' ∧ Q (.error e) s') :
    (attempt op >>= f).run.Safe exec I Q s := by
  refine ⟨hI, fun r s' hexec => ?_⟩
  cases r with
  | ok a => exact hok a s' hexec
  | error e => exact herror e s' hexec

theorem safe_asOption_bind {p : Fallible ε Op Ret α} {f : Option α → Fallible ε Op Ret β}
    (h : p.run.Safe exec I (fun r s => (f r.toOption).run.Safe exec I Q s) s) :
    (asOption p >>= f).run.Safe exec I Q s :=
  Prog.Safe.bind (Prog.Safe.bind (h.imp (fun _ hI => hI) fun _ _ hI hf => ⟨hI, hf⟩))

/-- An operation whose error is passed over. -/
theorem safe_look_bind {f : Option (Ret op) → Fallible ε Op Ret β} (hI : I s)
    (h : ∀ r s', exec op s r s' → (f r.toOption).run.Safe exec I Q s') :
    (asOption (attempt op) >>= f).run.Safe exec I Q s :=
  safe_asOption_bind ⟨hI, fun r s' hexec => ⟨(h r s' hexec).inv, h r s' hexec⟩⟩

theorem safe_ignoreError_bind {f : PUnit → Fallible ε Op Ret β} (hI : I s)
    (h : ∀ r s', exec op s r s' → (f ⟨⟩).run.Safe exec I Q s') :
    (ignoreError (attempt op) >>= f).run.Safe exec I Q s :=
  ⟨hI, h⟩

end SafeFallible

end Interleaved
