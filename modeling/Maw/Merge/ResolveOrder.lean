import Maw.Library.PartialJoin
import Maw.Merge.Resolve

/-!
# The order of the changes of a path

The merge algebra takes the changes of a path one after another, and passes over a content that is
equal to what is merged so far. When three-way merges against the base are a join (commutative and
associative, with the base as the unit) of which a content with itself is that content, neither the
order of the changes nor a change that stands twice has a part in the outcome. Without the last of
these it has.

## Main definitions

* `diff3Join` — merges against one base as joins that may fail.
* `OrderFree` — the outcome depends neither on the order nor on repetitions.

## Main results

* `resolveEntries_congr` — only the members of the list of changes matter.
* `resolveEntries_orderFree` — the outcome for merges that are joins.
* `not_resolveEntries_orderFree` — for some that are not idempotent it depends on the order.
-/

open PartialJoin

namespace Maw

variable {C ε : Type}

/-! ### Merges as joins -/

/-- Merges against a base as joins; a conflict is a failure of its own. -/
def diff3Join (diff3 : C → C → C → Except ε (Diff3Result C)) (base ours theirs : C) :
    Except (Option ε) C :=
  match diff3 base ours theirs with
  | .ok (.clean merged) => .ok merged
  | .ok .conflict => .error none
  | .error e => .error (some e)

/-- What the join of the contents makes of a path. -/
def outcomeOfJoin : Except (Option ε) C → Except ε (MergeOutcome C)
  | .ok merged => .ok (.upsert merged)
  | .error none => .ok (.conflict .diff3Conflict)
  | .error (some e) => .error e

variable [DecidableEq C] {diff3 : C → C → C → Except ε (Diff3Result C)}

/-- A content that is equal to the one so far may as well be merged. -/
theorem foldVariants_eq_outcomeOfJoin {base : C} (hidem : ∀ a, diff3Join diff3 base a a = .ok a)
    (merged : C) (rest : List C) :
    foldVariants diff3 base merged rest =
      outcomeOfJoin (rest.foldlM (diff3Join diff3 base) merged) := by
  induction rest generalizing merged with
  | nil => rfl
  | cons next rest ih =>
    rw [foldVariants, List.foldlM_cons]
    by_cases heq : merged = next
    · rw [if_pos heq, ← heq, hidem, ih]
      rfl
    · rw [if_neg heq, diff3Join]
      cases diff3 base merged next with
      | error e => rfl
      | ok result =>
        cases result with
        | clean out => exact ih out
        | conflict => rfl

/-! ### Only the members matter -/

section Congr

variable {base : Option C} {entries entries' : List (ChangeKind × Option C)}
  {variants variants' : List C}

theorem classifySharedPath_congr {kinds kinds' : List ChangeKind} {a b c : Bool}
    (hmem : ∀ k, k ∈ kinds ↔ k ∈ kinds') :
    classifySharedPath kinds a b c = classifySharedPath kinds' a b c := by
  have hall (p : ChangeKind → Bool) : kinds.all p = kinds'.all p := by
    rw [Bool.eq_iff_iff, List.all_eq_true, List.all_eq_true]
    exact forall_congr' fun k => by rw [hmem]
  have hany (p : ChangeKind → Bool) : kinds.any p = kinds'.any p := by
    rw [Bool.eq_iff_iff, List.any_eq_true, List.any_eq_true]
    exact exists_congr fun k => by rw [hmem]
  simp only [classifySharedPath, hall, hany]

theorem allContentEqual_iff_forall :
    allContentEqual variants = true ↔ ∀ v ∈ variants, ∀ w ∈ variants, v = w := by
  cases variants with
  | nil => simp [allContentEqual]
  | cons first rest =>
    rw [allContentEqual_iff]
    constructor
    · intro h v hv w hw
      have hfirst (u : C) (hu : u ∈ first :: rest) : u = first :=
        (List.mem_cons.mp hu).elim id (h u)
      rw [hfirst v hv, hfirst w hw]
    · exact fun h v hv => h v (List.mem_cons_of_mem _ hv) first List.mem_cons_self

theorem allContentEqual_congr (hmem : ∀ v, v ∈ variants ↔ v ∈ variants') :
    allContentEqual variants = allContentEqual variants' := by
  rw [Bool.eq_iff_iff, allContentEqual_iff_forall, allContentEqual_iff_forall]
  simp only [hmem]

theorem resolveClassified_congr {k : SharedClassification}
    (hlaws : ∀ b, base = some b → CommAssoc (diff3Join diff3 b) b)
    (hidem : ∀ b, base = some b → ∀ a, diff3Join diff3 b a a = .ok a)
    (hmem : ∀ v, v ∈ variants ↔ v ∈ variants')
    (hsame : k = .resolvedIdentical → allContentEqual variants = true) :
    resolveClassified diff3 variants base k = resolveClassified diff3 variants' base k := by
  cases k with
  | resolvedIdentical =>
    have hall := allContentEqual_iff_forall.mp (hsame rfl)
    match variants, variants' with
    | [], [] => rfl
    | first :: _, [] => exact absurd ((hmem first).mp List.mem_cons_self) List.not_mem_nil
    | [], first :: _ => exact absurd ((hmem first).mpr List.mem_cons_self) List.not_mem_nil
    | first :: _, first' :: _ =>
      have heq : first = first' :=
        hall _ List.mem_cons_self _ ((hmem first').mpr List.mem_cons_self)
      rw [heq]
      rfl
  | needsDiff3 =>
    match variants, variants' with
    | [], [] => rfl
    | first :: _, [] => exact absurd ((hmem first).mp List.mem_cons_self) List.not_mem_nil
    | [], first :: _ => exact absurd ((hmem first).mpr List.mem_cons_self) List.not_mem_nil
    | first :: rest, first' :: rest' =>
      match base with
      | none => rfl
      | some b =>
        have hjoin := (hlaws b rfl).joinAll_congr (hidem b rfl) hmem
        rw [joinAll_cons (hlaws b rfl), joinAll_cons (hlaws b rfl)] at hjoin
        change foldVariants diff3 b first rest = foldVariants diff3 b first' rest'
        rw [foldVariants_eq_outcomeOfJoin (hidem b rfl), hjoin,
          ← foldVariants_eq_outcomeOfJoin (hidem b rfl)]
  | _ => rfl

theorem classifySharedPath_resolvedIdentical {kinds : List ChangeKind} {a b c : Bool}
    (h : classifySharedPath kinds a b c = .resolvedIdentical) : b = true := by
  rw [classifySharedPath] at h
  split_ifs at h with h₁ h₂ h₃ h₄
  exact h₄

/-- Lists with the same changes have the same outcome. -/
theorem resolveEntries_congr
    (hlaws : ∀ b, base = some b → CommAssoc (diff3Join diff3 b) b)
    (hidem : ∀ b, base = some b → ∀ a, diff3Join diff3 b a a = .ok a)
    (hmem : ∀ e, e ∈ entries ↔ e ∈ entries') :
    resolveEntries entries base diff3 = resolveEntries entries' base diff3 := by
  have hkinds (k : ChangeKind) : k ∈ entries.map (·.1) ↔ k ∈ entries'.map (·.1) := by
    simp only [List.mem_map, hmem]
  have hvariants (v : C) : v ∈ entries.filterMap (·.2) ↔ v ∈ entries'.filterMap (·.2) := by
    simp only [List.mem_filterMap, hmem]
  have hcontent : (entries.all fun e => e.1 = .deleted || e.2.isSome) =
      entries'.all fun e => e.1 = .deleted || e.2.isSome := by
    rw [Bool.eq_iff_iff, List.all_eq_true, List.all_eq_true]
    exact forall_congr' fun e => by rw [hmem]
  simp only [resolveEntries]
  rw [classifySharedPath_congr hkinds, allContentEqual_congr hvariants, hcontent]
  refine resolveClassified_congr hlaws hidem hvariants fun hk => ?_
  rw [allContentEqual_congr hvariants]
  exact classifySharedPath_resolvedIdentical hk

end Congr

/-! ### The outcome -/

/-- The join of the contents of all changes; without a base there is one content only. -/
def IsJoinOf (diff3 : C → C → C → Except ε (Diff3Result C)) (base : Option C)
    (entries : List (ChangeKind × Option C)) (content : C) : Prop :=
  ∃ contents : List C, entries.map (·.2) = contents.map some ∧
    match base with
    | some b => joinAll (diff3Join diff3 b) b contents = .ok content
    | none => ∀ c ∈ contents, c = content

/-- The outcome for a list of changes is the one for any order of them and with repetitions; it is
a content only if it is the join of all, and a deletion only if all are. -/
structure OrderFree (diff3 : C → C → C → Except ε (Diff3Result C)) (base : Option C)
    (entries : List (ChangeKind × Option C)) : Prop where
  perm : ∀ entries', entries'.Perm entries →
    resolveEntries entries' base diff3 = resolveEntries entries base diff3
  duplicate : ∀ front e back, entries = front ++ e :: back →
    resolveEntries (front ++ e :: e :: back) base diff3 = resolveEntries entries base diff3
  upsert : ∀ content, resolveEntries entries base diff3 = .ok (.upsert content) →
    IsJoinOf diff3 base entries content
  delete : resolveEntries entries base diff3 = .ok .delete → ∀ e ∈ entries, e.1 = .deleted

omit [DecidableEq C] in
theorem map_eq_map_some {entries : List (ChangeKind × Option C)} (h : ∀ e ∈ entries, e.2.isSome) :
    entries.map (·.2) = (entries.filterMap (·.2)).map some := by
  induction entries with
  | nil => rfl
  | cons e entries ih =>
    obtain ⟨c, hc⟩ := Option.isSome_iff_exists.mp (h e List.mem_cons_self)
    rw [List.map_cons, List.filterMap_cons, hc, List.map_cons,
      ih fun e' he' => h e' (List.mem_cons_of_mem _ he')]

omit [DecidableEq C] in
theorem eq_of_outcomeOfJoin {r : Except (Option ε) C} {content : C}
    (h : outcomeOfJoin r = .ok (.upsert content)) : r = .ok content := by
  match r with
  | .ok merged =>
    cases h
    rfl
  | .error none => cases h
  | .error (some e) => cases h

/-- Without a base only equal contents resolve. -/
theorem allContentEqual_of_upsert {entries : List (ChangeKind × Option C)} {content : C}
    (h : resolveEntries entries none diff3 = .ok (.upsert content)) :
    allContentEqual (entries.filterMap (·.2)) = true := by
  rw [resolveEntries] at h
  cases hk : classifySharedPath (entries.map (·.1))
      (entries.all fun e => e.1 = .deleted || e.2.isSome)
      (allContentEqual (entries.filterMap (·.2))) (none : Option C).isSome with
  | resolvedIdentical => exact classifySharedPath_resolvedIdentical hk
  | needsDiff3 =>
    rw [hk] at h
    cases hv : entries.filterMap (·.2) <;> rw [hv] at h <;> cases h
  | _ =>
    rw [hk] at h
    cases h

/-- Written changes with one content have it as their outcome. -/
theorem resolveEntries_of_equal {entries : List (ChangeKind × Option C)} {base : Option C}
    {first : C} {rest : List C} (hwritten : AllWritten entries)
    (hcontents : entries.filterMap (·.2) = first :: rest)
    (hequal : allContentEqual (first :: rest) = true) :
    resolveEntries entries base diff3 = .ok (.upsert first) := by
  cases base with
  | some b => rw [resolveEntries_of_written hwritten hcontents, if_pos hequal]
  | none =>
    have hsame (k : SharedClassification) (hk : k = .resolvedIdentical) :
        resolveClassified diff3 (first :: rest) none k = .ok (.upsert first) := by
      rw [hk]
      rfl
    have hall : ¬ (entries.map (·.1)).all (fun k => k = .deleted) = true := by
      obtain ⟨e, he⟩ := List.exists_mem_of_ne_nil entries hwritten.1
      intro hdel
      exact (hwritten.2 e he).1
        (by simpa using List.all_eq_true.mp hdel e.1 (List.mem_map_of_mem he))
    have hnone : ¬ (entries.map (·.1)).any (fun k => k = .deleted) = true := by
      simpa using fun o he => (hwritten.2 (.deleted, o) he).1 rfl
    have hcontent : (entries.all fun e => e.1 = .deleted || e.2.isSome) = true := by
      rw [List.all_eq_true]
      intro e he
      simp [(hwritten.2 e he).2]
    rw [resolveEntries, hcontents]
    refine hsame _ ?_
    rw [classifySharedPath, if_neg hall, if_neg hnone, hcontent, hequal]
    rfl

theorem upsert_first {entries : List (ChangeKind × Option C)} {base : Option C} {content first : C}
    {rest : List C} (hwritten : AllWritten entries)
    (hcontents : entries.filterMap (·.2) = first :: rest)
    (hequal : allContentEqual (first :: rest) = true)
    (h : resolveEntries entries base diff3 = .ok (.upsert content)) : content = first := by
  rw [resolveEntries_of_equal hwritten hcontents hequal] at h
  cases h
  rfl

theorem isJoinOf_of_upsert {base : Option C} {entries : List (ChangeKind × Option C)} {content : C}
    (hlaws : ∀ b, base = some b → CommAssoc (diff3Join diff3 b) b)
    (hidem : ∀ b, base = some b → ∀ a, diff3Join diff3 b a a = .ok a)
    (h : resolveEntries entries base diff3 = .ok (.upsert content)) :
    IsJoinOf diff3 base entries content := by
  have hwritten := allWritten_of_upsert h
  obtain ⟨⟨first, rest, hcontents⟩, -⟩ := hwritten.contents
  refine ⟨_, map_eq_map_some fun e he => (hwritten.2 e he).2, ?_⟩
  cases base with
  | none =>
    have hequal := allContentEqual_of_upsert h
    rw [hcontents] at hequal ⊢
    obtain rfl := upsert_first hwritten hcontents hequal h
    exact fun c hc => allContentEqual_iff_forall.mp hequal c hc content List.mem_cons_self
  | some b =>
    rw [hcontents]
    by_cases hequal : allContentEqual (first :: rest) = true
    · obtain rfl := upsert_first hwritten hcontents hequal h
      have hmem (c : C) : c ∈ content :: rest ↔ c ∈ [content] := by
        rw [List.mem_singleton]
        refine ⟨fun hc => ?_, fun hc => hc ▸ List.mem_cons_self⟩
        exact allContentEqual_iff_forall.mp hequal c hc content List.mem_cons_self
      change joinAll (diff3Join diff3 b) b (content :: rest) = .ok content
      rw [(hlaws b rfl).joinAll_congr (hidem b rfl) hmem, joinAll_cons (hlaws b rfl)]
      rfl
    · rw [resolveEntries_of_written hwritten hcontents, if_neg hequal,
        foldVariants_eq_outcomeOfJoin (hidem b rfl)] at h
      change joinAll (diff3Join diff3 b) b (first :: rest) = .ok content
      rw [joinAll_cons (hlaws b rfl)]
      exact eq_of_outcomeOfJoin h

/-- When merges against the base are joins, and a content merged with itself is that content, the
outcome depends neither on the order of the changes nor on repetitions. -/
theorem resolveEntries_orderFree (base : Option C)
    (hlaws : ∀ b, base = some b → CommAssoc (diff3Join diff3 b) b)
    (hidem : ∀ b, base = some b → ∀ a, diff3Join diff3 b a a = .ok a)
    (entries : List (ChangeKind × Option C)) : OrderFree diff3 base entries where
  perm entries' hperm := resolveEntries_congr hlaws hidem fun e => hperm.mem_iff
  duplicate front e back heq := by
    refine resolveEntries_congr hlaws hidem fun e' => ?_
    rw [heq]
    simp
  upsert content := isJoinOf_of_upsert hlaws hidem
  delete := all_deleted_of_delete

/-! ### Merges that are not idempotent -/

section Samples

/-- Texts as numbers that are added up over an empty base. -/
def addUp (_ ours theirs : ℕ) : Except Unit (Diff3Result ℕ) := .ok (.clean (ours + theirs))

theorem commAssoc_addUp : CommAssoc (diff3Join addUp 0) 0 where
  comm a b := congrArg Except.ok (Nat.add_comm a b)
  assoc a b c := congrArg Except.ok (Nat.add_assoc a b c)
  unit_join a := congrArg Except.ok (Nat.zero_add a)

/-- Two equal contents count once if they are next to each other, and else twice. -/
theorem not_resolveEntries_orderFree :
    CommAssoc (diff3Join addUp 0) 0 ∧
      [(ChangeKind.modified, some 1), (.modified, some 2), (.modified, some 1)].Perm
        [(.modified, some 1), (.modified, some 1), (.modified, some 2)] ∧
      resolveEntries [(.modified, some 1), (.modified, some 2), (.modified, some 1)] (some 0)
        addUp = .ok (.upsert 4) ∧
      resolveEntries [(.modified, some 1), (.modified, some 1), (.modified, some 2)] (some 0)
        addUp = .ok (.upsert 3) := by
  refine ⟨commAssoc_addUp, ?_, by decide, by decide⟩
  exact (List.Perm.swap _ _ _).cons _

/-- One side may differ from the base, or both sides are the same. -/
def oneSide (base ours theirs : ℕ) : Except Unit (Diff3Result ℕ) :=
  if ours = base then .ok (.clean theirs)
  else if theirs = base ∨ theirs = ours then .ok (.clean ours)
  else .ok .conflict

theorem diff3Join_oneSide (base ours theirs : ℕ) : diff3Join oneSide base ours theirs =
    if ours = base then .ok theirs
    else if theirs = base ∨ theirs = ours then .ok ours
    else .error none := by
  rw [diff3Join, oneSide]
  split_ifs <;> rfl

theorem commAssoc_oneSide (base : ℕ) : CommAssoc (diff3Join oneSide base) base where
  comm a b := by
    simp only [diff3Join_oneSide]
    split_ifs <;> simp_all
  assoc a b c := by
    simp only [diff3Join_oneSide, bind, Except.bind]
    by_cases ha : a = base
    · grind
    · by_cases hb : b = base
      · grind
      · grind
  unit_join a := by rw [diff3Join_oneSide, if_pos rfl]

theorem resolveEntries_orderFree_sample : OrderFree oneSide (some 0)
    [(.modified, some 0), (.modified, some 1), (.modified, some 2)] := by
  refine resolveEntries_orderFree (some 0) ?_ ?_ _
  · rintro _ ⟨⟩
    exact commAssoc_oneSide 0
  · rintro _ ⟨⟩ a
    rw [diff3Join_oneSide]
    split_ifs <;> simp_all

end Samples

end Maw
