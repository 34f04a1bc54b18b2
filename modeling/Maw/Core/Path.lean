import Mathlib.Data.List.Lex
import Mathlib.Data.Char
import Maw.Library.PrefixOrder

/-!
# Repository paths

A path is a nonempty list of component names, ordered as a `PathBuf` is: component by
component, each component by its characters. A path is written with `/` between its
components, and the code tests for "below the directory `P`" on that text, with the prefix
`P/`; this module shows that the test is the strict prefix order on components.

## Main definitions

* `Path` — a repository-relative path.
* `Path.slashed` — the path as text.
* `Path.Above` — strict component-wise ancestry.
* `Path.ancestors` — the chain of parents, nearest first.

## Main results

* `Path.isDirPrefixOf_iff` — the text test `P/` is ancestry.
* `Path.mem_ancestors` — the chain of parents lists the paths strictly above.
-/

open PrefixOrder

namespace Maw

/-- One component of a path: a nonempty name without `/`. -/
structure Component where
  text : String
  isName : text.toList ≠ [] ∧ '/' ∉ text.toList
  deriving DecidableEq, Repr

/-- A repository-relative path with at least one component. -/
structure Path where
  components : List Component
  nonempty : components ≠ []
  deriving DecidableEq, Repr

namespace Component

theorem toList_injective : Function.Injective fun c : Component => c.text.toList := by
  rintro ⟨a, ha⟩ ⟨b, hb⟩ h
  congr
  exact String.toList_injective h

/-- A component with a name that is written out. -/
def lit (text : String) (h : text.toList ≠ [] ∧ '/' ∉ text.toList := by decide) : Component :=
  ⟨text, h⟩

end Component

namespace Path

/-- The components as lists of characters. -/
def names (p : Path) : List (List Char) := p.components.map fun c => c.text.toList

theorem names_injective : Function.Injective names := by
  rintro ⟨p, hp⟩ ⟨q, hq⟩ h
  congr
  exact List.map_injective_iff.mpr Component.toList_injective h

theorem names_ne_nil (p : Path) : p.names ≠ [] := by
  simpa [names] using p.nonempty

theorem mem_names {p : Path} {s : List Char} (h : s ∈ p.names) : s ≠ [] ∧ '/' ∉ s := by
  obtain ⟨c, -, rfl⟩ := List.mem_map.mp h
  exact c.isName

/-- Paths compare component by component. -/
instance : LinearOrder Path := LinearOrder.lift' names names_injective

/-- The path as text, with `/` between the components. -/
def slashed (p : Path) : List Char := joined '/' p.names

theorem slashed_injective : Function.Injective slashed := fun _ _ h =>
  names_injective (joined_injective (fun _ => mem_names) (fun _ => mem_names) h)

/-- The path as the code hands it to git: a backslash becomes a `/`. -/
def treePath (p : Path) : List Char := p.slashed.map fun c => if c = '\\' then '/' else c

/-- No component has a backslash in its name. -/
def IsPlain (p : Path) : Prop := '\\' ∉ p.slashed

instance (p : Path) : Decidable p.IsPlain := inferInstanceAs (Decidable (¬ _))

theorem IsPlain.treePath {p : Path} (h : p.IsPlain) : p.treePath = p.slashed := by
  have hchar : ∀ c ∈ p.slashed, (if c = '\\' then '/' else c) = id c := fun c hc =>
    if_neg fun he : c = '\\' => h (he ▸ hc)
  rw [Path.treePath, List.map_congr_left hchar, List.map_id]

/-- The path `a` is a strict component-wise ancestor of `p`. -/
def Above (a p : Path) : Prop := StrictPrefix a.components p.components

instance (a p : Path) : Decidable (a.Above p) :=
  inferInstanceAs (Decidable (StrictPrefix _ _))

theorem treePath_append_slash (p : Path) : p.treePath ++ ['/'] =
    (p.slashed ++ ['/']).map fun c => if c = '\\' then '/' else c := by
  simp [treePath]

theorem Above.irrefl (p : Path) : ¬ p.Above p := StrictPrefix.irrefl _

theorem Above.ne {a p : Path} (h : a.Above p) : a ≠ p := fun he => Above.irrefl p (he ▸ h)

theorem Above.trans {a p q : Path} (h : a.Above p) (h' : p.Above q) : a.Above q :=
  StrictPrefix.trans h h'

theorem Above.asymm {a p : Path} (h : a.Above p) : ¬ p.Above a := StrictPrefix.asymm h

theorem ext_components {p q : Path} (h : p.components = q.components) : p = q := by
  cases p
  cases q
  congr

/-- Two ancestors of one path are equal or one lies above the other. -/
theorem Above.trichotomy {a b p : Path} (ha : a.Above p) (hb : b.Above p) :
    a.Above b ∨ a = b ∨ b.Above a := by
  rcases StrictPrefix.trichotomy ha hb with h | h | h
  · exact .inl h
  · exact .inr (.inl (ext_components h))
  · exact .inr (.inr h)

theorem above_iff_names {a p : Path} : a.Above p ↔ StrictPrefix a.names p.names := by
  rw [Above, strictPrefix_iff_length, strictPrefix_iff_length, names, names, List.length_map,
    List.length_map, List.prefix_map_iff_of_injective Component.toList_injective]

/-- One of the two paths is a strict ancestor of the other. -/
def Comparable (p q : Path) : Prop := p.Above q ∨ q.Above p

instance (p q : Path) : Decidable (p.Comparable q) :=
  inferInstanceAs (Decidable (_ ∨ _))

/-- The test `q.starts_with("{p}/")` on the written paths. -/
def isDirPrefixOf (p q : Path) : Bool := (p.slashed ++ ['/']).isPrefixOf q.slashed

/-- The text test for lying below the directory `p` is strict ancestry. -/
theorem isDirPrefixOf_iff {p q : Path} : p.isDirPrefixOf q = true ↔ p.Above q := by
  rw [isDirPrefixOf, List.isPrefixOf_iff_prefix, slashed, slashed,
    joined_append_sep_prefix_iff p.names_ne_nil (fun s hs => (mem_names hs).2)
      (fun s hs => (mem_names hs).2), above_iff_names]

/-- The same test on the paths as the code hands them to git. -/
theorem Above.treePath_prefix {p q : Path} (h : p.Above q) :
    p.treePath ++ ['/'] <+: q.treePath := by
  rw [← isDirPrefixOf_iff, isDirPrefixOf, List.isPrefixOf_iff_prefix] at h
  rw [treePath_append_slash]
  exact h.map _

/-- The path made of a list of components, if there are any. -/
def ofComponents (l : List Component) : Option Path :=
  if h : l = [] then none else some ⟨l, h⟩

theorem ofComponents_eq_some {l : List Component} {p : Path} :
    ofComponents l = some p ↔ l = p.components := by
  unfold ofComponents
  split_ifs with h
  · simp [h, eq_comm, p.nonempty]
  · rw [Option.some.injEq]
    exact ⟨fun he => he ▸ rfl, fun he => ext_components he⟩

/-- The parents of a path up to the top level, nearest first: `path.parent()` repeated until
the empty path. -/
def ancestors (p : Path) : List Path := (strictPrefixes p.components).filterMap ofComponents

theorem mem_ancestors {a p : Path} : a ∈ p.ancestors ↔ a.Above p := by
  simp only [ancestors, List.mem_filterMap, ofComponents_eq_some, mem_strictPrefixes]
  constructor
  · rintro ⟨l, ⟨h, -⟩, rfl⟩
    exact h
  · exact fun h => ⟨a.components, ⟨h, a.nonempty⟩, rfl⟩

/-- Of two parents in the chain the earlier one is the nearer. -/
theorem ancestors_pairwise (p : Path) : p.ancestors.Pairwise fun a b => b.Above a := by
  rw [ancestors, List.pairwise_filterMap]
  refine (strictPrefixes_pairwise p.components).imp ?_
  intro l m h a ha b hb
  rw [ofComponents_eq_some] at ha hb
  subst ha hb
  exact h

end Path

/-- No path of the set lies above another one of it. -/
def PrefixFree (s : Set Path) : Prop := ∀ p ∈ s, ∀ q ∈ s, ¬ p.Above q

theorem PrefixFree.mono {s t : Set Path} (h : PrefixFree t) (hst : s ⊆ t) : PrefixFree s :=
  fun p hp q hq => h p (hst hp) q (hst hq)

theorem PrefixFree.not_comparable {s : Set Path} (h : PrefixFree s) {p q : Path} (hp : p ∈ s)
    (hq : q ∈ s) : ¬ p.Comparable q :=
  fun hc => hc.elim (h p hp q hq) (h q hq p hp)

end Maw
