import Mathlib.Data.Finset.Union
import Mathlib.Data.List.Infix

/-!
# Walks of directories

A walk lists what a directory has, enters some of the entries and lists others. The paths are lists
of names from the directory that the walk starts in.

## Main definitions

* `DirWalk.View` — the entries of a directory, and what a walk does with a path.
* `DirWalk.walk` — the paths that a walk lists.
* `DirWalk.Leads` — the names below a directory by which the walk gets to a path that it lists.

## Main results

* `DirWalk.mem_walk` — what a walk lists.
* `DirWalk.leads_iff` — a listed path has only entered ones above it.
-/

namespace DirWalk

variable {ν : Type*}

/-- What a walk does with a path: it enters it, or else lists it or not. -/
structure View (ν : Type*) where
  entries : List ν → Finset ν
  enters : List ν → Bool
  lists : List ν → Bool

/-- The paths below a directory that are listed, so many names below it at most. -/
def walk [DecidableEq ν] (view : View ν) : ℕ → List ν → Finset (List ν)
  | 0, _ => ∅
  | fuel + 1, dir => (view.entries dir).biUnion fun name =>
    if view.enters (dir ++ [name]) then walk view fuel (dir ++ [name])
    else if view.lists (dir ++ [name]) then {dir ++ [name]}
    else ∅

/-- Names that lead from a directory to a path that is listed. -/
def Leads (view : View ν) : List ν → List ν → Prop
  | _, [] => False
  | dir, name :: rest => name ∈ view.entries dir ∧
    if view.enters (dir ++ [name]) then Leads view (dir ++ [name]) rest
    else view.lists (dir ++ [name]) = true ∧ rest = []

variable {view : View ν}

theorem mem_walk [DecidableEq ν] {fuel : ℕ} {dir p : List ν} : p ∈ walk view fuel dir ↔
    ∃ below, p = dir ++ below ∧ below.length ≤ fuel ∧ Leads view dir below := by
  induction fuel generalizing dir with
  | zero =>
    simp only [walk, Finset.notMem_empty, false_iff, Nat.le_zero, List.length_eq_zero_iff]
    rintro ⟨below, -, rfl, hleads⟩
    exact hleads
  | succ fuel ih =>
    rw [walk, Finset.mem_biUnion]
    constructor
    · rintro ⟨name, hname, hp⟩
      split_ifs at hp with henters hlists
      · obtain ⟨below, rfl, hlength, hleads⟩ := ih.mp hp
        refine ⟨name :: below, by rw [List.append_assoc]; rfl, Nat.succ_le_succ hlength, hname, ?_⟩
        rwa [if_pos henters]
      · refine ⟨[name], Finset.mem_singleton.mp hp, Nat.succ_le_succ (Nat.zero_le _), hname, ?_⟩
        rw [if_neg henters]
        exact ⟨hlists, rfl⟩
      · exact absurd hp (Finset.notMem_empty _)
    · rintro ⟨below, rfl, hlength, hleads⟩
      cases below with
      | nil => exact hleads.elim
      | cons name rest =>
        obtain ⟨hname, hrest⟩ := hleads
        refine ⟨name, hname, ?_⟩
        split_ifs at hrest ⊢ with henters hlists
        · exact ih.mpr ⟨rest, by rw [List.append_assoc]; rfl, Nat.le_of_succ_le_succ hlength, hrest⟩
        · rw [hrest.2]
          exact Finset.mem_singleton_self _
        · exact absurd hrest.1 hlists

/-- What leads to a listed path: each name is an entry, and what stands above the path is entered. -/
theorem leads_iff {dir below : List ν} : Leads view dir below ↔ below ≠ [] ∧
    (∀ above name, above ++ [name] <+: below → name ∈ view.entries (dir ++ above)) ∧
    (∀ above, above <+: below → above ≠ [] → above ≠ below → view.enters (dir ++ above) = true) ∧
    view.enters (dir ++ below) = false ∧ view.lists (dir ++ below) = true := by
  induction below generalizing dir with
  | nil => simp [Leads]
  | cons name rest ih =>
    have happend (above : List ν) : dir ++ name :: above = dir ++ [name] ++ above := by
      rw [List.append_assoc, List.singleton_append]
    rw [Leads]
    constructor
    · rintro ⟨hname, hrest⟩
      refine ⟨List.cons_ne_nil _ _, ?_⟩
      split_ifs at hrest with henters
      · obtain ⟨-, hentries, habove, hlast, hlists⟩ := ih.mp hrest
        rw [← happend] at hlast hlists
        refine ⟨fun above name' hpre => ?_, fun above hpre hne hne' => ?_, hlast, hlists⟩
        · cases above with
          | nil =>
            obtain rfl : name' = name := (List.cons_prefix_cons.mp hpre).1
            rwa [List.append_nil]
          | cons first above =>
            obtain ⟨rfl, hbelow⟩ := List.cons_prefix_cons.mp hpre
            rw [happend]
            exact hentries above name' hbelow
        · cases above with
          | nil => exact absurd rfl hne
          | cons first above =>
            obtain ⟨rfl, hbelow⟩ := List.cons_prefix_cons.mp hpre
            rw [happend]
            by_cases hnil : above = []
            · rwa [hnil, List.append_nil]
            · exact habove above hbelow hnil fun h => hne' (by rw [h])
      · obtain ⟨hlists, rfl⟩ := hrest
        refine ⟨fun above name' hpre => ?_, fun above hpre hne hne' => ?_,
          Bool.eq_false_iff.mpr henters, hlists⟩
        · cases above with
          | nil =>
            obtain rfl : name' = name := (List.cons_prefix_cons.mp hpre).1
            rwa [List.append_nil]
          | cons first above =>
            obtain ⟨-, hpre⟩ := List.cons_prefix_cons.mp hpre
            simp at hpre
        · cases above with
          | nil => exact absurd rfl hne
          | cons first above =>
            obtain ⟨rfl, hnil⟩ := List.cons_prefix_cons.mp hpre
            rw [List.prefix_nil.mp hnil] at hne'
            exact absurd rfl hne'
    · rintro ⟨-, hentries, habove, hlast, hlists⟩
      have hname := hentries [] name ⟨rest, rfl⟩
      rw [List.append_nil] at hname
      refine ⟨hname, ?_⟩
      by_cases hrest : rest = []
      · rw [if_neg (by rw [← hrest, hlast]; exact Bool.false_ne_true)]
        subst hrest
        exact ⟨hlists, rfl⟩
      · rw [if_pos (habove [name] ⟨rest, rfl⟩ (List.cons_ne_nil _ _) (by simpa using hrest))]
        rw [happend] at hlast hlists
        refine ih.mpr ⟨hrest, fun above name' hpre => ?_, fun above hpre hne hne' => ?_, hlast, hlists⟩
        · rw [← happend]
          exact hentries (name :: above) name' (List.cons_prefix_cons.mpr ⟨rfl, hpre⟩)
        · rw [← happend]
          exact habove (name :: above) (List.cons_prefix_cons.mpr ⟨rfl, hpre⟩)
            (List.cons_ne_nil _ _) (by simpa using hne')

end DirWalk
