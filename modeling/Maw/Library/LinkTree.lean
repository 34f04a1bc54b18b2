import Mathlib.Data.List.Infix
import Mathlib.Logic.Function.Basic

/-!
# Trees of names with symbolic links

A tree gives the node at each place, a list of names from the root. A path is a list of steps that is
resolved from a directory: a link on the way is replaced by the steps of its text, so many times at
most.

## Main definitions

* `LinkTree.Tree` — the nodes at the places.
* `LinkTree.resolve` — the place that steps lead to.
* `LinkTree.Sub` — a tree with some nodes of another.
* `LinkTree.WellFormed` — what has a node below it is a directory.

## Main results

* `LinkTree.resolve_mono` — steps lead to the same place in a larger tree.
* `LinkTree.wellFormed_ofList` — a listed tree is well formed if its entries stand in directories.
* `LinkTree.resolve_names` — names that are no links lead to themselves.
* `LinkTree.resolve_concat` — what a path leads to stands in what the path above it leads to.
* `LinkTree.length_le_of_resolve` — how long a path is that leads somewhere.
-/

namespace LinkTree

/-- A step of a path: to the parent or to a child. -/
inductive Step (ν : Type*)
  | up
  | down (name : ν)
  deriving DecidableEq

/-- The text of a link: steps from the root or from the directory that has the link. -/
structure LinkText (ν : Type*) where
  absolute : Bool
  steps : List (Step ν)
  deriving DecidableEq

inductive Node (ν β : Type*)
  | file (data : β)
  | link (text : LinkText ν)
  | dir (readable searchable : Bool)
  deriving DecidableEq

namespace Node

variable {ν β : Type*}

def isDir : Node ν β → Bool
  | dir .. => true
  | _ => false

def isLink : Node ν β → Bool
  | link .. => true
  | _ => false

def isSearchable : Node ν β → Bool
  | dir _ searchable => searchable
  | _ => false

end Node

variable {ν β : Type*}

abbrev Tree (ν β : Type*) := List ν → Option (Node ν β)

/-! ### Resolution -/

/-- Take steps from a place; what stands at a link is resolved by another function. -/
def resolveFrom (fs : Tree ν β) (next : List ν → List (Step ν) → Option (List ν)) :
    List ν → List (Step ν) → Option (List ν)
  | place, [] => some place
  | place, step :: steps =>
    if (fs place).any Node.isSearchable then
      match step with
      | .up => resolveFrom fs next place.dropLast steps
      | .down name =>
        match fs (place ++ [name]) with
        | some (.link text) => next (if text.absolute then [] else place) (text.steps ++ steps)
        | some _ => resolveFrom fs next (place ++ [name]) steps
        | none => none
    else none

/-- Take steps from a place, through so many links at most. -/
def resolve (fs : Tree ν β) : ℕ → List ν → List (Step ν) → Option (List ν)
  | 0 => resolveFrom fs fun _ _ => none
  | links + 1 => resolveFrom fs (resolve fs links)

/-- A tree with some of the nodes of another. -/
def Sub (fs fs' : Tree ν β) : Prop := ∀ place node, fs place = some node → fs' place = some node

namespace Sub

variable {fs fs' fs'' : Tree ν β} {place : List ν}

theorem refl (fs : Tree ν β) : Sub fs fs := fun _ _ h => h

theorem trans (h : Sub fs fs') (h' : Sub fs' fs'') : Sub fs fs'' :=
  fun place node hnode => h' place node (h place node hnode)

theorem any (h : Sub fs fs') {p : Node ν β → Bool} (hp : (fs place).any p = true) :
    (fs' place).any p = true := by
  obtain ⟨node, hnode, hp⟩ := (Option.any_eq_true _ _).mp hp
  exact (Option.any_eq_true _ _).mpr ⟨node, h place node hnode, hp⟩

theorem isSome (h : Sub fs fs') (hsome : (fs place).isSome = true) :
    (fs' place).isSome = true := by
  obtain ⟨node, hnode⟩ := Option.isSome_iff_exists.mp hsome
  rw [h place node hnode, Option.isSome_some]

theorem eq_of_isSome (h : Sub fs fs') (hsome : (fs place).isSome = true) : fs place = fs' place := by
  obtain ⟨node, hnode⟩ := Option.isSome_iff_exists.mp hsome
  rw [hnode, h place node hnode]

end Sub

section Resolution

variable {fs fs' : Tree ν β} {next next' : List ν → List (Step ν) → Option (List ν)}
  {place final : List ν} {steps : List (Step ν)}

theorem resolveFrom_mono (h : Sub fs fs')
    (hnext : ∀ {place steps final}, next place steps = some final → next' place steps = some final)
    (hresolve : resolveFrom fs next place steps = some final) :
    resolveFrom fs' next' place steps = some final := by
  induction steps generalizing place with
  | nil => exact hresolve
  | cons step steps ih =>
    cases step with
    | up =>
      rw [resolveFrom] at hresolve ⊢
      split_ifs at hresolve with hsearch
      rw [if_pos (h.any hsearch)]
      exact ih hresolve
    | down name =>
      rw [resolveFrom] at hresolve ⊢
      split_ifs at hresolve with hsearch
      rw [if_pos (h.any hsearch)]
      cases hnode : fs (place ++ [name]) with
      | none =>
        rw [hnode] at hresolve
        cases hresolve
      | some node =>
        rw [hnode] at hresolve
        rw [h _ _ hnode]
        cases node with
        | link text => exact hnext hresolve
        | file data => exact ih hresolve
        | dir readable searchable => exact ih hresolve

/-- Steps that lead somewhere lead to the same place in a larger tree. -/
theorem resolve_mono (h : Sub fs fs') {links : ℕ}
    (hresolve : resolve fs links place steps = some final) :
    resolve fs' links place steps = some final := by
  induction links generalizing place steps final with
  | zero => exact resolveFrom_mono h (fun hnone => hnone) hresolve
  | succ links ih => exact resolveFrom_mono h ih hresolve

theorem resolveFrom_names (names : List ν)
    (hdirs : ∀ above, above <+: names → above ≠ names →
      (fs (place ++ above)).any Node.isSearchable = true)
    (hplain : ∀ above, above <+: names → above ≠ [] →
      (fs (place ++ above)).any (fun node => !node.isLink) = true) :
    resolveFrom fs next place (names.map .down) = some (place ++ names) := by
  induction names generalizing place with
  | nil => rw [List.map_nil, resolveFrom, List.append_nil]
  | cons name names ih =>
    have hsearch := hdirs [] List.nil_prefix (List.cons_ne_nil _ _).symm
    rw [List.append_nil] at hsearch
    have hname : [name] <+: name :: names := ⟨names, rfl⟩
    obtain ⟨node, hnode, hlink⟩ := (Option.any_eq_true _ _).mp
      (hplain [name] hname (List.cons_ne_nil _ _))
    have hrest : resolveFrom fs next (place ++ [name]) (names.map .down) =
        some (place ++ (name :: names)) := by
      rw [ih, List.append_assoc]
      · rfl
      · intro above habove hne
        rw [List.append_assoc]
        exact hdirs (name :: above) ((List.prefix_cons_inj name).mpr habove) (by simpa using hne)
      · intro above habove _
        rw [List.append_assoc]
        exact hplain (name :: above) ((List.prefix_cons_inj name).mpr habove)
          (List.cons_ne_nil _ _)
    rw [List.map_cons, resolveFrom, if_pos hsearch]
    simp only [hnode]
    cases node with
    | link text => cases hlink
    | file data => exact hrest
    | dir readable searchable => exact hrest

/-- Names below directories, none of them a link, lead to themselves. -/
theorem resolve_names (links : ℕ) (names : List ν)
    (hdirs : ∀ above, above <+: names → above ≠ names →
      (fs (place ++ above)).any Node.isSearchable = true)
    (hplain : ∀ above, above <+: names → above ≠ [] →
      (fs (place ++ above)).any (fun node => !node.isLink) = true) :
    resolve fs links place (names.map .down) = some (place ++ names) := by
  cases links with
  | zero => exact resolveFrom_names names hdirs hplain
  | succ links => exact resolveFrom_names names hdirs hplain

theorem resolveFrom_concat {name : ν}
    (hnext : ∀ {place steps final}, next place (steps ++ [.down name]) = some final →
      ∃ above, next place steps = some above ∧ (fs (above ++ [name])).isSome = true)
    (hresolve : resolveFrom fs next place (steps ++ [.down name]) = some final) :
    ∃ above, resolveFrom fs next place steps = some above ∧
      (fs (above ++ [name])).isSome = true := by
  induction steps generalizing place with
  | nil =>
    refine ⟨place, rfl, ?_⟩
    rw [List.nil_append, resolveFrom] at hresolve
    split_ifs at hresolve with hsearch
    cases hnode : fs (place ++ [name]) with
    | none =>
      rw [hnode] at hresolve
      cases hresolve
    | some node => rfl
  | cons step steps ih =>
    rw [List.cons_append] at hresolve
    cases step with
    | up =>
      rw [resolveFrom] at hresolve ⊢
      split_ifs at hresolve ⊢ with hsearch
      exact ih hresolve
    | down first =>
      rw [resolveFrom] at hresolve ⊢
      split_ifs at hresolve ⊢ with hsearch
      cases hnode : fs (place ++ [first]) with
      | none =>
        rw [hnode] at hresolve
        cases hresolve
      | some node =>
        rw [hnode] at hresolve
        cases node with
        | link text =>
          exact hnext (by rw [List.append_assoc]; exact hresolve)
        | file data => exact ih hresolve
        | dir readable searchable => exact ih hresolve

/-- A path leads to something in the directory that the path above it leads to. -/
theorem resolve_concat {links : ℕ} {name : ν}
    (hresolve : resolve fs links place (steps ++ [.down name]) = some final) :
    ∃ above, resolve fs links place steps = some above ∧
      (fs (above ++ [name])).isSome = true := by
  induction links generalizing place steps final with
  | zero => exact resolveFrom_concat (fun h => nomatch h) hresolve
  | succ links ih => exact resolveFrom_concat ih hresolve

section Length

variable {depth : ℕ} (hdepth : ∀ place, (fs place).isSome = true → place.length ≤ depth)
include hdepth

/-- Each name that is no link is one deeper, and after a link few names are left. -/
theorem length_le_of_names {bound : ℕ} {names : List ν}
    (hnext : ∀ {place : List ν} {steps : List (Step ν)} {names : List ν} {final : List ν},
      next place (steps ++ names.map .down) = some final → names.length ≤ bound)
    (hresolve : resolveFrom fs next place (names.map .down) = some final) :
    names = [] ∨ names.length + place.length ≤ bound + depth := by
  induction names generalizing place with
  | nil => exact Or.inl rfl
  | cons name names ih =>
    refine Or.inr ?_
    rw [List.map_cons, resolveFrom] at hresolve
    split_ifs at hresolve with hsearch
    cases hnode : fs (place ++ [name]) with
    | none =>
      rw [hnode] at hresolve
      cases hresolve
    | some node =>
      have hplace := hdepth (place ++ [name]) (by rw [hnode]; rfl)
      rw [List.length_append, List.length_singleton] at hplace
      rw [hnode] at hresolve
      rw [List.length_cons]
      have hplain (h : resolveFrom fs next (place ++ [name]) (names.map .down) = some final) :
          names.length + 1 + place.length ≤ bound + depth := by
        rcases ih h with rfl | hlength
        · rw [List.length_nil]
          omega
        · rw [List.length_append, List.length_singleton] at hlength
          omega
      cases node with
      | link text =>
        have hlength := hnext hresolve
        omega
      | file data => exact hplain hresolve
      | dir readable searchable => exact hplain hresolve

theorem length_le_of_resolveFrom {bound : ℕ} {names : List ν}
    (hnext : ∀ {place : List ν} {steps : List (Step ν)} {names : List ν} {final : List ν},
      next place (steps ++ names.map .down) = some final → names.length ≤ bound)
    (hresolve : resolveFrom fs next place (steps ++ names.map .down) = some final) :
    names.length ≤ bound + depth := by
  induction steps generalizing place with
  | nil =>
    rcases length_le_of_names hdepth hnext hresolve with rfl | hlength
    · exact Nat.zero_le _
    · omega
  | cons step steps ih =>
    rw [List.cons_append] at hresolve
    cases step with
    | up =>
      rw [resolveFrom] at hresolve
      split_ifs at hresolve with hsearch
      exact ih hresolve
    | down first =>
      rw [resolveFrom] at hresolve
      split_ifs at hresolve with hsearch
      cases hnode : fs (place ++ [first]) with
      | none =>
        rw [hnode] at hresolve
        cases hresolve
      | some node =>
        rw [hnode] at hresolve
        cases node with
        | link text =>
          have hlength := hnext (by rw [List.append_assoc]; exact hresolve)
          exact le_trans hlength (Nat.le_add_right _ _)
        | file data => exact ih hresolve
        | dir readable searchable => exact ih hresolve

/-- The names of a path that leads somewhere: no more than the tree is deep, after each link. -/
theorem length_le_of_resolve {links : ℕ} {names : List ν}
    (hresolve : resolve fs links place (steps ++ names.map .down) = some final) :
    names.length ≤ (links + 1) * depth := by
  induction links generalizing place steps names final with
  | zero =>
    have hlength : names.length ≤ 0 + depth :=
      length_le_of_resolveFrom hdepth (fun {_ _ _ _} h => by cases h) hresolve
    omega
  | succ links ih =>
    rw [Nat.succ_mul]
    exact length_le_of_resolveFrom hdepth ih hresolve

end Length

/-- A name that is not there leads nowhere. -/
theorem resolve_of_none (links : ℕ) {name : ν} (h : fs (place ++ [name]) = none) :
    resolve fs links place [.down name] = none := by
  have hfrom (next : List ν → List (Step ν) → Option (List ν)) :
      resolveFrom fs next place [.down name] = none := by
    rw [resolveFrom]
    simp only [h, ite_self]
  cases links with
  | zero => exact hfrom _
  | succ links => exact hfrom _

end Resolution

/-! ### Well-formed trees -/

/-- What has a node below it is a directory. -/
def WellFormed (fs : Tree ν β) : Prop :=
  ∀ place name, (fs (place ++ [name])).isSome = true → (fs place).any Node.isDir = true

namespace WellFormed

variable {fs : Tree ν β} {place : List ν}

/-- What stands above a node is a directory. -/
theorem isDir_above (h : WellFormed fs) {below : List ν} (hne : below ≠ [])
    (hsome : (fs (place ++ below)).isSome = true) : (fs place).any Node.isDir = true := by
  induction below generalizing place with
  | nil => exact absurd rfl hne
  | cons name below ih =>
    refine h place name ?_
    by_cases hbelow : below = []
    · rwa [hbelow] at hsome
    · rw [List.append_cons] at hsome
      obtain ⟨node, hnode, -⟩ := (Option.any_eq_true _ _).mp (ih hbelow hsome)
      rw [hnode, Option.isSome_some]

/-- Nothing stands below what is no directory. -/
theorem eq_none_below (h : WellFormed fs) {node : Node ν β} (hnode : fs place = some node)
    (hdir : node.isDir = false) (name : ν) : fs (place ++ [name]) = none := by
  by_contra hne
  have hany := h place name (Option.isSome_iff_ne_none.mpr hne)
  rw [hnode, Option.any_some, hdir] at hany
  cases hany

variable [DecidableEq ν]

/-- A node with nothing below it is removed. -/
theorem erase (h : WellFormed fs) (hleaf : ∀ name, fs (place ++ [name]) = none) :
    WellFormed (Function.update fs place none) := by
  intro above name hsome
  by_cases hname : above ++ [name] = place
  · rw [hname, Function.update_self] at hsome
    cases hsome
  · rw [Function.update_of_ne hname] at hsome
    have hne : above ≠ place := by
      rintro rfl
      rw [hleaf name] at hsome
      cases hsome
    rw [Function.update_of_ne hne]
    exact h above name hsome

end WellFormed

/-! ### Trees that are listed -/

section OfList

variable [DecidableEq ν] {entries : List (List ν × Node ν β)} {place : List ν}

/-- The tree of a list of places and nodes; the first entry of a place counts. -/
def ofList (entries : List (List ν × Node ν β)) : Tree ν β := fun place => entries.lookup place

theorem mem_of_ofList (h : (ofList entries place).isSome = true) : place ∈ entries.map Prod.fst := by
  obtain ⟨node, hnode⟩ := Option.isSome_iff_exists.mp h
  obtain ⟨before, after, rfl, -⟩ := List.lookup_eq_some_iff.mp hnode
  simp

/-- A list has a well-formed tree if what stands above its entries are directories. -/
theorem wellFormed_ofList (h : ∀ place ∈ entries.map Prod.fst, place ≠ [] →
    (ofList entries place.dropLast).any Node.isDir = true) : WellFormed (ofList entries) := by
  intro place name hsome
  have hdir := h _ (mem_of_ofList hsome) (by simp)
  rwa [List.dropLast_concat] at hdir

end OfList

theorem sub_erase [DecidableEq ν] (fs : Tree ν β) (place : List ν) :
    Sub (Function.update fs place none) fs := by
  intro other node hnode
  by_cases heq : other = place
  · rw [heq, Function.update_self] at hnode
    cases hnode
  · rwa [Function.update_of_ne heq] at hnode

end LinkTree
