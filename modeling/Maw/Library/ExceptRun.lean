import Mathlib.Data.List.Forall2

/-!
# Runs of fallible computations

What is known of a computation in `Except ε` from the fact that it returned a value: the
computation before each bind returned, and the invariant of a fallible loop holds at its end.

## Main results

* `ExceptRun.bind_eq_ok` — a bind that returns takes a returned value further.
* `ExceptRun.mapM_eq_ok` — a fallible map that returns does so at every item.
* `ExceptRun.foldlM_settles` — what the steps of a fallible loop settle.
* `ExceptRun.foldlM_induction` — the invariant rule for a fallible loop.
-/

namespace ExceptRun

universe u v w

variable {ε : Type u} {α β S : Type v} {A : Type w}

theorem bind_eq_ok {x : Except ε α} {f : α → Except ε β} {b : β} :
    (x >>= f) = .ok b ↔ ∃ a, x = .ok a ∧ f a = .ok b := by
  cases x with
  | error e => simp [bind, Except.bind]
  | ok a => simp [bind, Except.bind]

theorem bind_eq_error {x : Except ε α} {f : α → Except ε β} {e : ε} :
    (x >>= f) = .error e ↔ x = .error e ∨ ∃ a, x = .ok a ∧ f a = .error e := by
  cases x with
  | error e => simp [bind, Except.bind]
  | ok a => simp [bind, Except.bind]

@[simp]
theorem pure_ne_error {a : α} {e : ε} : (pure a : Except ε α) ≠ .error e := by
  simp [pure, Except.pure]

@[simp]
theorem pure_eq_ok {a b : α} : (pure a : Except ε α) = .ok b ↔ a = b := by
  simp [pure, Except.pure]

@[simp]
theorem throw_ne_ok {e : ε} {b : α} : (throw e : Except ε α) ≠ .ok b := by
  simp [throw, throwThe, MonadExceptOf.throw]

theorem map_eq_ok {x : Except ε α} {f : α → β} {b : β} :
    (f <$> x) = .ok b ↔ ∃ a, x = .ok a ∧ f a = b := by
  cases x with
  | error e => simp [Functor.map, Except.map]
  | ok a => simp [Functor.map, Except.map]

@[simp]
theorem mapError_eq_ok {ε' : Type*} {x : Except ε α} {f : ε → ε'} {a : α} :
    x.mapError f = .ok a ↔ x = .ok a := by
  cases x <;> simp [Except.mapError]

theorem mapError_bind {ε' : Type*} (x : Except ε α) (f : α → Except ε β) (g : ε → ε') :
    (x >>= f).mapError g = x.mapError g >>= fun a => (f a).mapError g := by
  cases x <;> rfl

/-- A computation that is seen to return has a value. -/
theorem exists_ok {x : Except ε α} (h : x.toBool = true) : ∃ a, x = .ok a := by
  cases x with
  | error e => simp [Except.toBool] at h
  | ok a => exact ⟨a, rfl⟩

theorem mapM_eq_ok {f : A → Except ε α} :
    ∀ {l : List A} {r : List α}, l.mapM f = .ok r → List.Forall₂ (fun a b => f a = .ok b) l r
  | [], r, h => by
    rw [List.mapM_nil, pure_eq_ok] at h
    exact h ▸ .nil
  | a :: l, r, h => by
    rw [List.mapM_cons, bind_eq_ok] at h
    obtain ⟨b, hb, h⟩ := h
    rw [bind_eq_ok] at h
    obtain ⟨bs, hbs, h⟩ := h
    rw [pure_eq_ok] at h
    exact h ▸ .cons hb (mapM_eq_ok hbs)

/-- Every result of a fallible map is the result of an item. -/
theorem exists_of_mem_mapM {f : A → Except ε α} {l : List A} {r : List α} (h : l.mapM f = .ok r)
    {b : α} (hb : b ∈ r) : ∃ a ∈ l, f a = .ok b := by
  have hall := mapM_eq_ok h
  clear h
  induction hall with
  | nil => exact absurd hb List.not_mem_nil
  | cons hab _ ih =>
    rcases List.mem_cons.mp hb with rfl | hb
    · exact ⟨_, List.mem_cons_self, hab⟩
    · obtain ⟨a, ha, hfa⟩ := ih hb
      exact ⟨a, List.mem_cons_of_mem _ ha, hfa⟩

/-- Every item of a fallible map has a result. -/
theorem exists_mem_of_mapM {f : A → Except ε α} {l : List A} {r : List α} (h : l.mapM f = .ok r)
    {a : A} (ha : a ∈ l) : ∃ b ∈ r, f a = .ok b := by
  have hall := mapM_eq_ok h
  clear h
  induction hall with
  | nil => exact absurd ha List.not_mem_nil
  | cons hab _ ih =>
    rcases List.mem_cons.mp ha with rfl | ha
    · exact ⟨_, List.mem_cons_self, hab⟩
    · obtain ⟨b, hb, hfb⟩ := ih ha
      exact ⟨b, List.mem_cons_of_mem _ hb, hfb⟩

/-- A fallible map keeps what its function keeps. -/
theorem map_of_mapM {κ : Type*} {f : A → Except ε α} {g : A → κ} {g' : α → κ}
    (hf : ∀ a b, f a = .ok b → g' b = g a) {l : List A} {r : List α} (h : l.mapM f = .ok r) :
    r.map g' = l.map g := by
  have hall := mapM_eq_ok h
  clear h
  induction hall with
  | nil => rfl
  | cons hab _ ih => rw [List.map_cons, List.map_cons, hf _ _ hab, ih]

theorem eq_map_of_mapM {f : A → Except ε α} {g : A → α} (hf : ∀ a b, f a = .ok b → b = g a)
    {l : List A} {r : List α} (h : l.mapM f = .ok r) : r = l.map g := by
  have hmap : r.map id = l.map g := map_of_mapM hf h
  rwa [List.map_id] at hmap

/-- A fallible map fails as one of its items does. -/
theorem mapM_eq_error {f : A → Except ε α} {e : ε} :
    ∀ {l : List A}, l.mapM f = .error e → ∃ a ∈ l, f a = .error e
  | [], h => by simp [List.mapM_nil] at h
  | a :: l, h => by
    rw [List.mapM_cons, bind_eq_error] at h
    rcases h with h | ⟨b, -, h⟩
    · exact ⟨a, List.mem_cons_self, h⟩
    · rw [bind_eq_error] at h
      rcases h with h | ⟨bs, -, h⟩
      · obtain ⟨a', ha', he⟩ := mapM_eq_error h
        exact ⟨a', List.mem_cons_of_mem a ha', he⟩
      · exact absurd h pure_ne_error

/-- The results of a fallible map are related as its items are. -/
theorem pairwise_of_mapM {f : A → Except ε α} {R : A → A → Prop} {S : α → α → Prop}
    (hS : ∀ a a' b b', R a a' → f a = .ok b → f a' = .ok b' → S b b') :
    ∀ {l : List A} {r : List α}, l.mapM f = .ok r → l.Pairwise R → r.Pairwise S
  | [], r, h, _ => by
    rw [List.mapM_nil, pure_eq_ok] at h
    exact h ▸ List.Pairwise.nil
  | a :: l, r, h, hl => by
    rw [List.mapM_cons, bind_eq_ok] at h
    obtain ⟨b, hb, h⟩ := h
    rw [bind_eq_ok] at h
    obtain ⟨bs, hbs, h⟩ := h
    obtain rfl := pure_eq_ok.mp h
    rw [List.pairwise_cons] at hl ⊢
    refine ⟨fun b' hb' => ?_, pairwise_of_mapM hS hbs hl.2⟩
    obtain ⟨a', ha', hfa'⟩ := exists_of_mem_mapM hbs hb'
    exact hS a a' b b' (hl.1 a' ha') hb hfa'

/-- A fallible map returns if it does so at every item. -/
theorem exists_mapM {f : A → Except ε α} {l : List A} (h : ∀ a ∈ l, ∃ b, f a = .ok b) :
    ∃ r, l.mapM f = .ok r := by
  rcases hr : l.mapM f with e | r
  · obtain ⟨a, ha, he⟩ := mapM_eq_error hr
    obtain ⟨b, hb⟩ := h a ha
    rw [hb] at he
    cases he
  · exact ⟨r, rfl⟩

/-- A fallible loop returns if its steps do. -/
theorem exists_foldlM {step : S → A → Except ε S} :
    ∀ {l : List A}, (∀ a ∈ l, ∀ s, ∃ s', step s a = .ok s') → ∀ s, ∃ s', l.foldlM step s = .ok s'
  | [], _, s => ⟨s, rfl⟩
  | a :: l, h, s => by
    obtain ⟨s₁, hs₁⟩ := h a List.mem_cons_self s
    obtain ⟨s', hs'⟩ := exists_foldlM (fun b hb => h b (List.mem_cons_of_mem _ hb)) s₁
    exact ⟨s', by rw [List.foldlM_cons, hs₁]; exact hs'⟩

/-- In a fallible loop whose steps only go on in one direction, what each step settles about its
item is settled at the end. -/
theorem foldlM_settles {step : S → A → Except ε S} {R : S → S → Prop} (hrefl : ∀ s, R s s)
    (htrans : ∀ s s' s'', R s s' → R s' s'' → R s s'') {P : A → S → Prop}
    (hstable : ∀ a s s', P a s → R s s' → P a s')
    (hstep : ∀ a s s', step s a = .ok s' → R s s' ∧ P a s') :
    ∀ {l : List A} {s s' : S}, l.foldlM step s = .ok s' → R s s' ∧ ∀ a ∈ l, P a s'
  | [], s, s', h => by
    rw [List.foldlM_nil, pure_eq_ok] at h
    exact ⟨h ▸ hrefl s, by simp⟩
  | a :: l, s, s', h => by
    rw [List.foldlM_cons, bind_eq_ok] at h
    obtain ⟨s₁, ha, hrest⟩ := h
    obtain ⟨hR, hP⟩ := hstep a s s₁ ha
    obtain ⟨hR', hall⟩ := foldlM_settles hrefl htrans hstable hstep hrest
    refine ⟨htrans s s₁ s' hR hR', fun b hb => ?_⟩
    rcases List.mem_cons.mp hb with rfl | hb
    · exact hstable b s₁ s' hP hR'
    · exact hall b hb

/-- A property of the items not yet visited and the state is carried to the end of a fallible
loop by its steps. -/
theorem foldlM_induction {step : S → A → Except ε S} (inv : List A → S → Prop)
    (hstep : ∀ a l s s', inv (a :: l) s → step s a = .ok s' → inv l s') :
    ∀ {l : List A} {s s' : S}, inv l s → l.foldlM step s = .ok s' → inv [] s'
  | [], s, s', hs, hrun => by
    rw [List.foldlM_nil, pure_eq_ok] at hrun
    exact hrun ▸ hs
  | a :: l, s, s', hs, hrun => by
    rw [List.foldlM_cons, bind_eq_ok] at hrun
    obtain ⟨s₁, hs₁, hrun⟩ := hrun
    exact foldlM_induction inv hstep (hstep a l s s₁ hs hs₁) hrun

end ExceptRun
