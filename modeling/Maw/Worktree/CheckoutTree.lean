import Maw.Library.ExceptRun
import Maw.Library.LinkTree
import Maw.Worktree.StatusItems

/-!
# Checking out a tree

A checkout writes the entries of the target tree and then removes the files that the previous index
has and the target has not. These are found by a walk from the worktree that enters whatever is a
directory, links included, and that compares the texts of the paths.

## Main definitions

* `CheckoutInput` — the disk, the previous index and the target; `written` is the disk when the
  entries are written.
* `System` — what the system answers: links, permissions and the order of names.
* `removeStaleFiles`, `checkoutTree` — the walk and the checkout.
* `OnlyTracked` — stale files are gone, and all other files are kept.
* `StaleOnly` — what the walk finds by a stale text is stale, and stale files are found.

## Main results

* `removeStaleFiles_stable` — a walk with more names finds no more.
* `checkoutTree_onlyTracked` — only tracked files are touched.
* `not_onlyTracked` — a directory that became a link loses a file of another.
-/

open LinkTree PrefixOrder

namespace Maw.Checkout

open StatusItems RelaPath

/-! ### The disk and the target -/

/-- The bytes of a file and whether it is executable. -/
structure FileData where
  content : Bytes
  executable : Bool
  deriving DecidableEq

abbrev Disk := Tree Name FileData

/-- A file or a link. -/
abbrev Leaf := {node : Node Name FileData // node.isDir = false}

theorem isName_git : ".git".toList ≠ [] ∧ '/' ∉ ".git".toList := by decide

def gitName : Name := .text (Component.lit ".git" isName_git)

/-- The disk with a worktree, the paths of its index, if it can be read, and the target. -/
structure CheckoutInput where
  root : List Name
  before : Disk
  wellFormed : WellFormed before
  root_isDir : (before root).any Node.isDir = true
  oldIndex : Option (List RelaPath)
  target : FiniteMap RelaPath Leaf
  target_leaf : ∀ p ∈ target.keys, ∀ q ∈ target.keys, ¬ StrictPrefix p.names q.names

namespace CheckoutInput

variable (input : CheckoutInput)

/-- The entry of the target at some names. -/
def entryAt (names : List Name) : Option Leaf :=
  if h : names ≠ [] then input.target.lookup ⟨names, h⟩ else none

/-- What stands below the worktree at some names, when the entries of the target are written. -/
def writtenAt (names : List Name) (old : Option (Node Name FileData)) :
    Option (Node Name FileData) :=
  match input.entryAt names with
  | some leaf => some leaf.1
  | none =>
    if ∃ p ∈ input.target.keys, StrictPrefix names p.names then
      if old.any Node.isDir then old else some (.dir true true)
    else if ∃ p ∈ input.target.keys, StrictPrefix p.names names then none
    else old

/-- The disk when the entries of the target are written. -/
def written : Disk := fun place =>
  if input.root <+: place then input.writtenAt (place.drop input.root.length) (input.before place)
  else input.before place

/-- The paths of the index; none if it cannot be read. -/
def tracked : List RelaPath := input.oldIndex.getD []

/-- Whether a path is text, and this one. -/
def hasText (rel : List Char) (p : RelaPath) : Bool := p.toStr.any fun q => q.slashed = rel

/-- A text that was tracked and that the target has not. -/
def isStale (rel : List Char) : Bool :=
  rel ≠ [] && input.tracked.any (hasText rel) &&
    !decide (∃ p ∈ input.target.keys, hasText rel p = true)

/-- A path that was tracked and that the target has not. -/
def Stale (p : RelaPath) : Prop := p ∈ input.tracked ∧ p ∉ input.target.keys

end CheckoutInput

/-! ### The walk -/

inductive CheckoutError
  | checkout
  | writeIndex
  | removeStaleFile (rel : List Char)
  deriving DecidableEq, Repr

/-- What the system answers: how many links a path may lead through, which paths are short enough,
the names in a directory in the order in which they are read, and what it removes. -/
structure System (input : CheckoutInput) where
  maxLinks : ℕ
  fits : List Name → Bool
  maxNames : ℕ
  fits_length : ∀ names, fits names = true → names.length ≤ maxNames
  readDir : Disk → List Name → List Name
  mem_readDir : ∀ fs, Sub fs input.written → ∀ place name,
    name ∈ readDir fs place ↔ (fs (place ++ [name])).isSome = true
  /-- Names that are gone before they are read may be left out. -/
  unread : Disk → List Name → Name → Bool
  unread_gone : ∀ fs place name, unread fs place name = true → fs (place ++ [name]) = none
  removable : List Name → Bool
  lossy : Name → Component
  lossy_text : ∀ c, lossy (.text c) = c
  checksOut : Bool
  writesIndex : Bool

namespace System

variable {input : CheckoutInput} (sys : System input)

/-- The place of what a path below the worktree leads to. -/
def lookup (fs : Disk) (names : List Name) : Option (List Name) :=
  if sys.fits names then resolve fs sys.maxLinks input.root (names.map .down) else none

/-- Whether a path leads to a directory. -/
def isDir (fs : Disk) (names : List Name) : Bool :=
  (sys.lookup fs names).any fun place => (fs place).any Node.isDir

/-- The place of a name in a directory; a link at the name is not followed. -/
def entryPlace (fs : Disk) (dir : List Name) (name : Name) : Option (List Name) :=
  if sys.fits (dir ++ [name]) then
    (resolve fs sys.maxLinks input.root (dir.map .down)).bind fun place =>
      if (fs place).any Node.isSearchable && (fs (place ++ [name])).isSome then
        some (place ++ [name])
      else none
  else none

/-- The place of a directory and the names in it, if they can be read. -/
def readDirectory (fs : Disk) (dir : List Name) : Option (List Name × List Name) :=
  (sys.lookup fs dir).bind fun place =>
    match fs place with
    | some (.dir true _) => some (place, sys.readDir fs place)
    | _ => none

def removeFile (fs : Disk) (dir : List Name) (name : Name) : Option Disk :=
  (sys.entryPlace fs dir name).bind fun place =>
    if (fs place).any (fun node => !node.isDir) && sys.removable place then
      some (Function.update fs place none)
    else none

/-- Remove a directory that is empty. -/
def removeDir (fs : Disk) (dir : List Name) (name : Name) : Disk :=
  match sys.entryPlace fs dir name with
  | some place =>
    if (fs place).any Node.isDir && (sys.readDir fs place).isEmpty && sys.removable place then
      Function.update fs place none
    else fs
  | none => fs

/-- The text of a path below the worktree, with replacements for what is no text. -/
def relText (dir : List Name) (name : Name) : List Char :=
  Path.treePath ⟨(dir ++ [name]).map sys.lossy, by simp⟩

/-- Visit one name of a directory. -/
def visit (walk : Disk → List Name → Except CheckoutError Disk) (dir place : List Name) (fs : Disk)
    (name : Name) : Except CheckoutError Disk :=
  if name = gitName || sys.unread fs place name then .ok fs
  else if sys.isDir fs (dir ++ [name]) then do
    let fs ← walk fs (dir ++ [name])
    return sys.removeDir fs dir name
  else
    let rel := sys.relText dir name
    if input.isStale rel then
      match sys.removeFile fs dir name with
      | some fs => .ok fs
      | none => .error (.removeStaleFile rel)
    else .ok fs

/-- Remove the stale files below a directory whose path may have so many names more. -/
def removeStaleFiles : ℕ → Disk → List Name → Except CheckoutError Disk
  | 0, fs, _ => .ok fs
  | depth + 1, fs, dir =>
    match sys.readDirectory fs dir with
    | none => .ok fs
    | some (place, names) =>
      names.foldlM (visit sys (removeStaleFiles depth) dir place) fs

/-- Write the entries and the index, then remove the stale files. -/
def checkoutTree : Except CheckoutError Disk :=
  if !sys.checksOut then .error .checkout
  else if !sys.writesIndex then .error .writeIndex
  else sys.removeStaleFiles (sys.maxNames + 1) input.written []

end System

/-! ### The written disk -/

namespace CheckoutInput

variable {input : CheckoutInput} {names : List Name}

theorem written_below (names : List Name) : input.written (input.root ++ names) =
    input.writtenAt names (input.before (input.root ++ names)) := by
  rw [written, if_pos (List.prefix_append _ _), List.drop_left]

theorem written_outside {place : List Name} (h : ¬ input.root <+: place) :
    input.written place = input.before place := if_neg h

theorem entryAt_names (p : RelaPath) : input.entryAt p.names = input.target.lookup p :=
  dif_pos p.nonempty

theorem exists_of_entryAt {leaf : Leaf} (h : input.entryAt names = some leaf) :
    ∃ p ∈ input.target.keys, p.names = names ∧ input.target.lookup p = some leaf := by
  rw [entryAt] at h
  split_ifs at h with hne
  exact ⟨⟨names, hne⟩, Finmap.mem_keys.mpr (Finmap.mem_of_lookup_eq_some h), rfl, h⟩

theorem written_target {p : RelaPath} {leaf : Leaf} (h : input.target.lookup p = some leaf) :
    input.written (input.root ++ p.names) = some leaf.1 := by
  rw [written_below, writtenAt, entryAt_names, h]

/-- A directory stands above an entry. -/
theorem isDir_above_target {p : RelaPath} (hp : p ∈ input.target.keys)
    (habove : StrictPrefix names p.names) :
    (input.written (input.root ++ names)).any Node.isDir = true := by
  have hnone : input.entryAt names = none := by
    cases hentry : input.entryAt names with
    | none => rfl
    | some leaf =>
      obtain ⟨q, hq, rfl, -⟩ := exists_of_entryAt hentry
      exact absurd habove (input.target_leaf q hq p hp)
  rw [written_below, writtenAt, hnone]
  simp only
  rw [if_pos ⟨p, hp, habove⟩]
  split_ifs with hold
  · exact hold
  · rfl

/-- What is neither an entry nor above or below one is as before. -/
theorem written_eq_before (hentry : input.entryAt names = none)
    (hclear : ∀ q ∈ input.target.keys, ¬ StrictPrefix names q.names ∧ ¬ StrictPrefix q.names names) :
    input.written (input.root ++ names) = input.before (input.root ++ names) := by
  rw [written_below, writtenAt, hentry]
  simp only
  rw [if_neg fun ⟨q, hq, h⟩ => (hclear q hq).1 h, if_neg fun ⟨q, hq, h⟩ => (hclear q hq).2 h]

/-- What is written is an entry, a directory above one, or as before. -/
theorem written_cases (hsome : (input.written (input.root ++ names)).isSome = true) :
    (∃ p leaf, p.names = names ∧ input.target.lookup p = some leaf ∧
      input.written (input.root ++ names) = some leaf.1) ∨
    (∃ p ∈ input.target.keys, StrictPrefix names p.names) ∨
    (input.written (input.root ++ names) = input.before (input.root ++ names) ∧
      ∀ p ∈ input.target.keys, ¬ p.names <+: names) := by
  cases hentry : input.entryAt names with
  | some leaf =>
    obtain ⟨p, -, rfl, hp⟩ := exists_of_entryAt hentry
    exact .inl ⟨p, leaf, rfl, hp, written_target hp⟩
  | none =>
    by_cases habove : ∃ p ∈ input.target.keys, StrictPrefix names p.names
    · exact .inr (.inl habove)
    · have hnotBelow : ¬ ∃ p ∈ input.target.keys, StrictPrefix p.names names := by
        intro hbelow
        rw [written_below, writtenAt, hentry] at hsome
        simp only [if_neg habove, if_pos hbelow, Option.isSome_none, Bool.false_eq_true] at hsome
      refine .inr (.inr ⟨written_eq_before hentry fun q hq => ?_, fun p hp hwithin => ?_⟩)
      · exact ⟨fun h => habove ⟨q, hq, h⟩, fun h => hnotBelow ⟨q, hq, h⟩⟩
      · refine hnotBelow ⟨p, hp, hwithin, ?_⟩
        rintro rfl
        obtain ⟨leaf, hleaf⟩ := Finmap.mem_iff.mp (Finmap.mem_keys.mp hp)
        rw [entryAt_names, hleaf] at hentry
        cases hentry

/-- The written disk is well formed again. -/
theorem written_wellFormed (input : CheckoutInput) : WellFormed input.written := by
  intro place name hsome
  by_cases hroot : input.root <+: place
  · obtain ⟨names, rfl⟩ := hroot
    rw [List.append_assoc] at hsome
    rcases written_cases hsome with ⟨p, leaf, hp, hlookup, -⟩ | ⟨p, hp, habove⟩ | ⟨hbefore, hclear⟩
    · refine isDir_above_target (Finmap.mem_keys.mpr (Finmap.mem_of_lookup_eq_some hlookup)) ?_
      rw [hp]
      exact ⟨List.prefix_append _ _, by simp⟩
    · refine isDir_above_target hp (StrictPrefix.trans ?_ habove)
      exact ⟨List.prefix_append _ _, by simp⟩
    · rw [hbefore, ← List.append_assoc] at hsome
      have hdir := input.wellFormed _ _ hsome
      by_cases habove : ∃ p ∈ input.target.keys, StrictPrefix names p.names
      · obtain ⟨p, hp, habove⟩ := habove
        exact isDir_above_target hp habove
      · have hentry : input.entryAt names = none := by
          cases hentry : input.entryAt names with
          | none => rfl
          | some leaf =>
            obtain ⟨p, hp, rfl, -⟩ := exists_of_entryAt hentry
            exact absurd (List.prefix_append _ _) (hclear p hp)
        rw [written_eq_before hentry fun q hq =>
          ⟨fun h => habove ⟨q, hq, h⟩, fun h => hclear q hq (h.1.trans (List.prefix_append _ _))⟩]
        exact hdir
  · by_cases hchild : input.root <+: place ++ [name]
    · have heq : input.root = place ++ [name] := by
        rcases List.prefix_concat_iff.mp hchild with h | h
        · exact h
        · exact absurd h hroot
      have hdir := input.root_isDir
      rw [heq] at hdir
      obtain ⟨node, hnode, -⟩ := (Option.any_eq_true _ _).mp hdir
      rw [written_outside hroot]
      exact input.wellFormed place name (by rw [hnode, Option.isSome_some])
    · rw [written_outside hchild] at hsome
      rw [written_outside hroot]
      exact input.wellFormed place name hsome

end CheckoutInput

/-! ### What a walk removes -/

namespace System

variable {input : CheckoutInput} {sys : System input} {fs fs' : Disk} {dir names place : List Name}
  {name : Name}

/-- The walk reads a directory of the written disk. -/
def Reads (sys : System input) (dir : List Name) : Prop :=
  (sys.readDirectory input.written dir).isSome = true

/-- The paths of the directories that the walk enters, through links too. -/
inductive Visits (sys : System input) : List Name → Prop
  | root : Visits sys []
  | child {dir : List Name} {name : Name} : Visits sys dir → sys.Reads dir → name ≠ gitName →
      sys.isDir input.written (dir ++ [name]) = true → Visits sys (dir ++ [name])

/-- One removal: of a file that is found by a stale text, or of an empty directory. -/
inductive Removes (sys : System input) : Disk → Disk → Prop
  | file {fs : Disk} {dir place : List Name} {name : Name} {node : Node Name FileData} :
      Visits sys dir → sys.Reads dir → name ≠ gitName → sys.entryPlace fs dir name = some place →
      fs place = some node → node.isDir = false →
      input.isStale (sys.relText dir name) = true →
      Removes sys fs (Function.update fs place none)
  | dir {fs : Disk} {place : List Name} : (fs place).any Node.isDir = true →
      (∀ name, fs (place ++ [name]) = none) → Removes sys fs (Function.update fs place none)

theorem Removes.sub (h : Removes sys fs fs') : Sub fs' fs := by
  cases h with
  | file => exact sub_erase _ _
  | dir => exact sub_erase _ _

theorem Removes.wellFormed (h : Removes sys fs fs') (hfs : WellFormed fs) : WellFormed fs' := by
  cases h with
  | file _ _ _ _ hnode hleaf _ => exact hfs.erase fun name => hfs.eq_none_below hnode hleaf name
  | dir _ hempty => exact hfs.erase hempty

abbrev Removals (sys : System input) : Disk → Disk → Prop := Relation.ReflTransGen (Removes sys)

theorem Removals.sub (h : Removals sys fs fs') : Sub fs' fs := by
  induction h with
  | refl => exact Sub.refl fs
  | tail _ hlast ih => exact hlast.sub.trans ih

theorem Removals.wellFormed (h : Removals sys fs fs') (hfs : WellFormed fs) : WellFormed fs' := by
  induction h with
  | refl => exact hfs
  | tail _ hlast ih => exact hlast.wellFormed ih

/-! ### What the walk does -/

theorem lookup_mono (h : Sub fs fs') (hlookup : sys.lookup fs names = some place) :
    sys.lookup fs' names = some place := by
  rw [lookup] at hlookup ⊢
  split_ifs at hlookup with hfits
  rw [if_pos hfits]
  exact resolve_mono h hlookup

theorem isDir_mono (h : Sub fs fs') (hdir : sys.isDir fs names = true) :
    sys.isDir fs' names = true := by
  obtain ⟨place, hplace, hnode⟩ := (Option.any_eq_true _ _).mp hdir
  exact (Option.any_eq_true _ _).mpr ⟨place, lookup_mono h hplace, h.any hnode⟩

theorem readDirectory_eq_some {listing : List Name} :
    sys.readDirectory fs dir = some (place, listing) ↔ sys.lookup fs dir = some place ∧
      (∃ searchable, fs place = some (.dir true searchable)) ∧ listing = sys.readDir fs place := by
  rw [readDirectory, Option.bind_eq_some_iff]
  constructor
  · rintro ⟨place', hlookup, h⟩
    split at h
    · rename_i searchable hnode
      obtain ⟨rfl, rfl⟩ := Prod.mk.inj (Option.some.inj h)
      exact ⟨hlookup, ⟨searchable, hnode⟩, rfl⟩
    · cases h
  · rintro ⟨hlookup, ⟨searchable, hnode⟩, rfl⟩
    exact ⟨place, hlookup, by rw [hnode]⟩

theorem reads_of_readDirectory (hsub : Sub fs input.written) {listing : List Name}
    (h : sys.readDirectory fs dir = some (place, listing)) : sys.Reads dir := by
  obtain ⟨hlookup, ⟨searchable, hnode⟩, -⟩ := readDirectory_eq_some.mp h
  have hwritten : sys.readDirectory input.written dir =
      some (place, sys.readDir input.written place) :=
    readDirectory_eq_some.mpr ⟨lookup_mono hsub hlookup, ⟨searchable, hsub _ _ hnode⟩, rfl⟩
  rw [Reads, hwritten, Option.isSome_some]

theorem entryPlace_eq_some : sys.entryPlace fs dir name = some place ↔
    sys.fits (dir ++ [name]) = true ∧ ∃ above,
      resolve fs sys.maxLinks input.root (dir.map .down) = some above ∧
        (fs above).any Node.isSearchable = true ∧ (fs (above ++ [name])).isSome = true ∧
          above ++ [name] = place := by
  rw [entryPlace]
  constructor
  · intro h
    split_ifs at h with hfits
    obtain ⟨above, habove, h⟩ := Option.bind_eq_some_iff.mp h
    split_ifs at h with hnode
    rw [Bool.and_eq_true] at hnode
    exact ⟨hfits, above, habove, hnode.1, hnode.2, Option.some.inj h⟩
  · rintro ⟨hfits, above, habove, hsearch, hnode, rfl⟩
    simp only [hfits, if_true, habove, Option.bind_some, hsearch, hnode, Bool.and_self]

theorem entryPlace_mono (h : Sub fs fs') (hplace : sys.entryPlace fs dir name = some place) :
    sys.entryPlace fs' dir name = some place := by
  obtain ⟨hfits, above, habove, hsearch, hnode, heq⟩ := entryPlace_eq_some.mp hplace
  exact entryPlace_eq_some.mpr
    ⟨hfits, above, resolve_mono h habove, h.any hsearch, h.isSome hnode, heq⟩

theorem removeFile_eq_some : sys.removeFile fs dir name = some fs' ↔
    ∃ place node, sys.entryPlace fs dir name = some place ∧ fs place = some node ∧
      node.isDir = false ∧ sys.removable place = true ∧ fs' = Function.update fs place none := by
  rw [removeFile, Option.bind_eq_some_iff]
  constructor
  · rintro ⟨place, hplace, h⟩
    split_ifs at h with hnode
    rw [Bool.and_eq_true] at hnode
    obtain ⟨node, hnode', hleaf⟩ := (Option.any_eq_true _ _).mp hnode.1
    exact ⟨place, node, hplace, hnode', by simpa using hleaf, hnode.2, (Option.some.inj h).symm⟩
  · rintro ⟨place, node, hplace, hnode, hleaf, hremovable, rfl⟩
    exact ⟨place, hplace, by simp [hnode, hleaf, hremovable]⟩

/-- A directory is left alone or it is empty and removed. -/
theorem removals_removeDir (hsub : Sub fs input.written) (dir : List Name) (name : Name) :
    Removals sys fs (sys.removeDir fs dir name) := by
  rw [removeDir]
  cases sys.entryPlace fs dir name with
  | none => exact .refl
  | some place =>
    simp only
    split_ifs with hdir
    · rw [Bool.and_eq_true, Bool.and_eq_true, List.isEmpty_iff] at hdir
      refine .single (.dir hdir.1.1 fun child => ?_)
      have hchild := (sys.mem_readDir fs hsub place child).not.mp (by rw [hdir.1.2]; simp)
      simpa using hchild
    · exact .refl

/-- What a visit of one name does. -/
theorem visit_cases {walk : Disk → List Name → Except CheckoutError Disk}
    (h : visit sys walk dir place fs name = .ok fs') :
    (fs' = fs ∧ (name = gitName ∨ sys.unread fs place name = true ∨
      sys.isDir fs (dir ++ [name]) = false ∧
        input.isStale (sys.relText dir name) = false)) ∨
    (name ≠ gitName ∧ sys.isDir fs (dir ++ [name]) = true ∧
      ∃ later, walk fs (dir ++ [name]) = .ok later ∧ fs' = sys.removeDir later dir name) ∨
    (name ≠ gitName ∧ input.isStale (sys.relText dir name) = true ∧
      sys.removeFile fs dir name = some fs') := by
  rw [visit] at h
  split_ifs at h with hskip hdir
  · obtain rfl := Except.ok.inj h
    rw [Bool.or_eq_true, decide_eq_true_eq] at hskip
    exact .inl ⟨rfl, hskip.imp_right .inl⟩
  · obtain ⟨later, hlater, h⟩ := ExceptRun.bind_eq_ok.mp h
    rw [Bool.or_eq_true, decide_eq_true_eq, not_or] at hskip
    exact .inr (.inl ⟨hskip.1, hdir, later, hlater, (ExceptRun.pure_eq_ok.mp h).symm⟩)
  · rw [Bool.or_eq_true, decide_eq_true_eq, not_or] at hskip
    by_cases hstale : input.isStale (sys.relText dir name) = true
    · simp only [if_pos hstale] at h
      cases hremove : sys.removeFile fs dir name with
      | none =>
        rw [hremove] at h
        cases h
      | some later =>
        rw [hremove] at h
        obtain rfl := Except.ok.inj h
        exact .inr (.inr ⟨hskip.1, hstale, rfl⟩)
    · simp only [if_neg hstale] at h
      obtain rfl := Except.ok.inj h
      exact .inl ⟨rfl, .inr (.inr ⟨by simpa using hdir, by simpa using hstale⟩)⟩

/-- A visit removes step by step, if the walk of a directory does. -/
theorem removals_visit {walk : Disk → List Name → Except CheckoutError Disk}
    (hwalk : ∀ {fs fs' : Disk} {dir : List Name}, Sub fs input.written → Visits sys dir →
      walk fs dir = .ok fs' → Removals sys fs fs')
    (hsub : Sub fs input.written) (hdir : Visits sys dir) (hreads : sys.Reads dir)
    (h : visit sys walk dir place fs name = .ok fs') : Removals sys fs fs' := by
  rcases visit_cases h with ⟨rfl, -⟩ | ⟨hgit, hisDir, later, hlater, rfl⟩ | ⟨hgit, hstale, hremove⟩
  · exact .refl
  · have hvisits : Visits sys (dir ++ [name]) :=
      .child hdir hreads hgit (isDir_mono hsub hisDir)
    have hremovals := hwalk hsub hvisits hlater
    exact hremovals.trans (removals_removeDir (hremovals.sub.trans hsub) dir name)
  · obtain ⟨place, node, hplace, hnode, hleaf, -, rfl⟩ := removeFile_eq_some.mp hremove
    exact .single (.file hdir hreads hgit hplace hnode hleaf hstale)

/-- The walk removes step by step. -/
theorem removals_removeStaleFiles {depth : ℕ} (hsub : Sub fs input.written) (hdir : Visits sys dir)
    (h : sys.removeStaleFiles depth fs dir = .ok fs') : Removals sys fs fs' := by
  induction depth generalizing fs fs' dir with
  | zero =>
    obtain rfl := Except.ok.inj h
    exact .refl
  | succ depth ih =>
    rw [removeStaleFiles] at h
    cases hread : sys.readDirectory fs dir with
    | none =>
      rw [hread] at h
      obtain rfl := Except.ok.inj h
      exact .refl
    | some opened =>
      obtain ⟨place, listing⟩ := opened
      rw [hread] at h
      have hreads := reads_of_readDirectory hsub hread
      exact ExceptRun.foldlM_induction (fun _ later => Removals sys fs later)
        (fun name _ later final hlater hvisit => hlater.trans
          (removals_visit ih (hlater.sub.trans hsub) hdir hreads hvisit)) .refl h

theorem readDirectory_of_length (h : sys.maxNames < dir.length) (fs : Disk) :
    sys.readDirectory fs dir = none := by
  have hfits : ¬ sys.fits dir = true := fun hfits => absurd (sys.fits_length dir hfits) (by omega)
  rw [readDirectory, lookup, if_neg hfits, Option.bind_none]

/-- A walk with more names than a path can have finds no more. -/
theorem removeStaleFiles_stable {depth : ℕ} (h : sys.maxNames < depth + dir.length) (fs : Disk) :
    sys.removeStaleFiles (depth + 1) fs dir = sys.removeStaleFiles depth fs dir := by
  induction depth generalizing fs dir with
  | zero =>
    have hread := readDirectory_of_length (by simpa using h) fs
    simp only [removeStaleFiles, hread]
  | succ depth ih =>
    have hvisit (place : List Name) : visit sys (sys.removeStaleFiles (depth + 1)) dir place =
        visit sys (sys.removeStaleFiles depth) dir place := by
      funext fs name
      rw [visit, visit, ih (by rw [List.length_append, List.length_singleton]; omega)]
    rw [removeStaleFiles, removeStaleFiles]
    cases sys.readDirectory fs dir with
    | none => rfl
    | some opened => simp only [hvisit]

/-! ### Files that are kept -/

/-- What the walk finds by a stale text is the place of a stale path. -/
def FindsStaleOnly (sys : System input) : Prop :=
  ∀ dir name place, Visits sys dir → sys.Reads dir → name ≠ gitName →
    sys.entryPlace input.written dir name = some place →
      (input.written place).any (fun node => !node.isDir) = true →
        input.isStale (sys.relText dir name) = true →
          ∃ p, input.Stale p ∧ place = input.root ++ p.names

/-- The files of the written disk that are at no stale path. -/
def KeepsFiles (fs : Disk) (input : CheckoutInput) : Prop :=
  ∀ place node, input.written place = some node → node.isDir = false →
    (¬ ∃ p, input.Stale p ∧ place = input.root ++ p.names) → fs place = some node

theorem Removes.keepsFiles (hfinds : sys.FindsStaleOnly) (hsub : Sub fs input.written)
    (h : Removes sys fs fs') (hkeeps : KeepsFiles fs input) : KeepsFiles fs' input := by
  intro other node hwritten hleaf hother
  cases h with
  | @file dir place name gone hdir hreads hgit hplace hnode hgone hstale =>
    have hne : other ≠ place := by
      rintro rfl
      refine hother (hfinds dir name other hdir hreads hgit (entryPlace_mono hsub hplace) ?_ hstale)
      rw [hwritten, Option.any_some, hleaf, Bool.not_false]
    rw [Function.update_of_ne hne]
    exact hkeeps other node hwritten hleaf hother
  | @dir place hdir hempty =>
    have hne : other ≠ place := by
      rintro rfl
      have hany := hsub.any hdir
      rw [hwritten, Option.any_some, hleaf] at hany
      cases hany
    rw [Function.update_of_ne hne]
    exact hkeeps other node hwritten hleaf hother

theorem Removals.keepsFiles (hfinds : sys.FindsStaleOnly) (h : Removals sys input.written fs) :
    KeepsFiles fs input := by
  induction h with
  | refl => exact fun _ _ hwritten _ _ => hwritten
  | tail hfirst hlast ih => exact hlast.keepsFiles hfinds (Removals.sub hfirst) ih

/-! ### Stale files that are found -/

/-- The text of the path is stale, the path is no link to a directory, and the directories above it can
be entered and read. -/
structure Found (sys : System input) (p : RelaPath) : Prop where
  git_notMem : gitName ∉ p.names
  text : ∀ dir name, dir ++ [name] = p.names → input.isStale (sys.relText dir name) = true
  notDir : sys.isDir input.written p.names = false
  above : ∀ dir, dir <+: p.names → dir ≠ p.names →
    sys.fits dir = true ∧ input.written (input.root ++ dir) = some (.dir true true)

variable {p : RelaPath}

/-- A directory above a file that is there leads to itself. -/
theorem lookup_above (hsub : Sub fs input.written) (hwf : WellFormed fs) (hfound : sys.Found p)
    (hsome : (fs (input.root ++ p.names)).isSome = true) (hwithin : dir <+: p.names)
    (hne : dir ≠ p.names) :
    sys.lookup fs dir = some (input.root ++ dir) ∧
      fs (input.root ++ dir) = some (.dir true true) := by
  have hdirs : ∀ above, above <+: p.names → above ≠ p.names →
      fs (input.root ++ above) = some (.dir true true) := by
    intro above habove hneAbove
    obtain ⟨below, hbelow⟩ := habove
    rw [← hbelow, ← List.append_assoc] at hsome
    have hbelowNe : below ≠ [] := by
      rintro rfl
      exact hneAbove (by rw [← hbelow, List.append_nil])
    obtain ⟨node, hnode, -⟩ := (Option.any_eq_true _ _).mp (hwf.isDir_above hbelowNe hsome)
    rw [hsub.eq_of_isSome (by rw [hnode, Option.isSome_some])]
    exact (hfound.above above ⟨below, hbelow⟩ hneAbove).2
  have hproper : ∀ above, above <+: dir → above <+: p.names ∧ above ≠ p.names := by
    intro above habove
    refine ⟨habove.trans hwithin, ?_⟩
    rintro rfl
    exact hne (hwithin.eq_of_length (le_antisymm hwithin.length_le habove.length_le))
  refine ⟨?_, hdirs dir hwithin hne⟩
  rw [lookup, if_pos (hfound.above dir hwithin hne).1]
  refine resolve_names _ dir (fun above habove _ => ?_) fun above habove _ => ?_
  · rw [hdirs above (hproper above habove).1 (hproper above habove).2]
    rfl
  · rw [hdirs above (hproper above habove).1 (hproper above habove).2]
    rfl

/-- A path that resolves in the directory of a file on the way is the place below that directory. -/
theorem entryPlace_above (hlookup : sys.lookup fs dir = some (input.root ++ dir))
    (h : sys.entryPlace fs dir name = some place) : place = input.root ++ dir ++ [name] := by
  obtain ⟨-, above, habove, -, -, rfl⟩ := entryPlace_eq_some.mp h
  rw [lookup] at hlookup
  split_ifs at hlookup with hfits
  rw [habove] at hlookup
  rw [Option.some.inj hlookup]

def HasLeaf (fs : Disk) (place : List Name) : Prop :=
  (fs place).any (fun node => !node.isDir) = true

theorem isSome_of_hasLeaf (h : HasLeaf fs place) : (fs place).isSome = true := by
  obtain ⟨node, hnode, -⟩ := (Option.any_eq_true _ _).mp h
  rw [hnode, Option.isSome_some]

/-- The visit of a stale file that is found leaves no file there. -/
theorem clears_visit_file {walk : Disk → List Name → Except CheckoutError Disk}
    (hsub : Sub fs input.written) (hwf : WellFormed fs) (hfound : sys.Found p)
    (hnames : dir ++ [name] = p.names)
    (h : visit sys walk dir (input.root ++ dir) fs name = .ok fs') :
    ¬ HasLeaf fs' (input.root ++ p.names) ∨ ¬ HasLeaf fs (input.root ++ p.names) := by
  rw [or_iff_not_imp_right, not_not]
  intro hbefore hafter
  have hsome := isSome_of_hasLeaf hbefore
  have hgit : name ≠ gitName := by
    rintro rfl
    exact hfound.git_notMem (by rw [← hnames]; simp)
  have hdirNe : dir ≠ p.names := by
    rw [← hnames]
    simp
  obtain ⟨hlookup, -⟩ := lookup_above hsub hwf hfound hsome ⟨[name], hnames⟩ hdirNe
  have hnotDir := hfound.notDir
  rw [← hnames, ← List.append_assoc] at hsome hafter
  rw [← hnames] at hnotDir
  rcases visit_cases h with ⟨-, heq | hunread | ⟨-, hstale⟩⟩ | ⟨-, hdir, -⟩ | ⟨-, -, hremove⟩
  · exact hgit heq
  · rw [sys.unread_gone _ _ _ hunread] at hsome
    cases hsome
  · rw [hfound.text dir name hnames] at hstale
    cases hstale
  · rw [isDir_mono hsub hdir] at hnotDir
    cases hnotDir
  · obtain ⟨place, node, hplace, -, -, -, rfl⟩ := removeFile_eq_some.mp hremove
    rw [entryPlace_above hlookup hplace, HasLeaf, Function.update_self] at hafter
    cases hafter

/-- The visit of a directory on the way to a stale file that is found leaves no file there, if the walk
of the directory does not. -/
theorem clears_visit_dir {walk : Disk → List Name → Except CheckoutError Disk}
    (hsub : Sub fs input.written) (hwf : WellFormed fs) (hfound : sys.Found p)
    (hwithin : dir ++ [name] <+: p.names) (hne : dir ++ [name] ≠ p.names)
    (hwalk : ∀ {later}, walk fs (dir ++ [name]) = .ok later →
      Sub later input.written ∧ ¬ HasLeaf later (input.root ++ p.names))
    (h : visit sys walk dir (input.root ++ dir) fs name = .ok fs') :
    ¬ HasLeaf fs' (input.root ++ p.names) ∨ ¬ HasLeaf fs (input.root ++ p.names) := by
  rw [or_iff_not_imp_right, not_not]
  intro hbefore hafter
  have hsome := isSome_of_hasLeaf hbefore
  have hgit : name ≠ gitName := by
    rintro rfl
    exact hfound.git_notMem (hwithin.subset (by simp))
  have hdirPrefix : dir <+: p.names := (List.prefix_append _ _).trans hwithin
  have hdirNe : dir ≠ p.names := by
    rintro heq
    have hlength := hwithin.length_le
    rw [← heq, List.length_append, List.length_singleton] at hlength
    omega
  obtain ⟨hlookup, -⟩ := lookup_above hsub hwf hfound hsome hdirPrefix hdirNe
  obtain ⟨hchild, hnode⟩ := lookup_above hsub hwf hfound hsome hwithin hne
  have hisDir : sys.isDir fs (dir ++ [name]) = true := by
    rw [isDir, hchild, Option.any_some, hnode]
    rfl
  rw [← List.append_assoc] at hnode
  rcases visit_cases h with ⟨-, heq | hunread | ⟨hdir, -⟩⟩ | ⟨-, -, later, hlater, rfl⟩ |
    ⟨-, -, hremove⟩
  · exact hgit heq
  · rw [sys.unread_gone _ _ _ hunread] at hnode
    cases hnode
  · rw [hisDir] at hdir
    cases hdir
  · obtain ⟨hlaterSub, hlaterLeaf⟩ := hwalk hlater
    exact hlaterLeaf ((removals_removeDir hlaterSub dir name).sub.any hafter)
  · obtain ⟨place, node, hplace, hgone, hleaf, -, -⟩ := removeFile_eq_some.mp hremove
    rw [entryPlace_above hlookup hplace, hnode] at hgone
    obtain rfl := Option.some.inj hgone
    cases hleaf

/-- A directory on the way to a stale file that is found is entered. -/
theorem visits_child (hdir : Visits sys dir) (hreads : sys.Reads dir) (hfound : sys.Found p)
    (hwithin : dir ++ [name] <+: p.names) (hne : dir ++ [name] ≠ p.names)
    (hsome : (input.written (input.root ++ p.names)).isSome = true) :
    Visits sys (dir ++ [name]) := by
  have hgit : name ≠ gitName := by
    rintro rfl
    exact hfound.git_notMem (hwithin.subset (by simp))
  obtain ⟨hlookup, hnode⟩ :=
    lookup_above (Sub.refl _) input.written_wellFormed hfound hsome hwithin hne
  refine .child hdir hreads hgit ?_
  rw [isDir, hlookup, Option.any_some, hnode]
  rfl

/-- The walk of a directory above a stale file that is found leaves no file there. -/
theorem clears_removeStaleFiles {depth : ℕ} (hfs : Removals sys input.written fs)
    (hdir : Visits sys dir) (hfound : sys.Found p) (hwithin : dir <+: p.names) (hne : dir ≠ p.names)
    (hdepth : sys.maxNames < depth + dir.length)
    (h : sys.removeStaleFiles depth fs dir = .ok fs') :
    ¬ HasLeaf fs' (input.root ++ p.names) := by
  induction depth generalizing fs fs' dir with
  | zero =>
    have hfits := sys.fits_length dir (hfound.above dir hwithin hne).1
    omega
  | succ depth ih =>
    intro hleaf
    have hwf := hfs.wellFormed input.written_wellFormed
    have hremovals := removals_removeStaleFiles hfs.sub hdir h
    have hsome := isSome_of_hasLeaf (hremovals.sub.any hleaf)
    obtain ⟨hlookup, hnode⟩ := lookup_above hfs.sub hwf hfound hsome hwithin hne
    have hread : sys.readDirectory fs dir =
        some (input.root ++ dir, sys.readDir fs (input.root ++ dir)) :=
      readDirectory_eq_some.mpr ⟨hlookup, ⟨true, hnode⟩, rfl⟩
    have hreads := reads_of_readDirectory hfs.sub hread
    obtain ⟨rest, hrest⟩ := hwithin
    cases rest with
    | nil => exact hne (by rw [← hrest, List.append_nil])
    | cons name rest =>
      have hname : dir ++ [name] <+: p.names := ⟨rest, by rw [← hrest]; simp⟩
      have hlisted : name ∈ sys.readDir fs (input.root ++ dir) := by
        refine (sys.mem_readDir fs hfs.sub _ _).mpr ?_
        by_cases heq : dir ++ [name] = p.names
        · rwa [List.append_assoc, heq]
        · obtain ⟨-, hchild⟩ := lookup_above hfs.sub hwf hfound hsome hname heq
          rw [List.append_assoc, hchild, Option.isSome_some]
      rw [removeStaleFiles, hread] at h
      have hrun := ExceptRun.foldlM_induction (fun left later => Removals sys fs later ∧
          (name ∉ left → ¬ HasLeaf later (input.root ++ p.names)))
        (fun child left later final hlater hvisit => ?_) ⟨.refl, fun hnot => absurd hlisted hnot⟩ h
      · exact hrun.2 List.not_mem_nil hleaf
      · obtain ⟨hlater, hgone⟩ := hlater
        have hsub := hlater.sub.trans hfs.sub
        have hstep := removals_visit removals_removeStaleFiles hsub hdir hreads hvisit
        refine ⟨hlater.trans hstep, fun hleft hfinal => ?_⟩
        by_cases heq : child = name
        · subst heq
          have hwfLater := hlater.wellFormed hwf
          have hvisited : ¬ HasLeaf final (input.root ++ p.names) ∨
              ¬ HasLeaf later (input.root ++ p.names) := by
            by_cases hlast : dir ++ [child] = p.names
            · exact clears_visit_file hsub hwfLater hfound hlast hvisit
            · have hvisits := visits_child hdir hreads hfound hname hlast (hfs.sub.isSome hsome)
              refine clears_visit_dir hsub hwfLater hfound hname hlast (fun hwalk => ?_) hvisit
              refine ⟨(removals_removeStaleFiles hsub hvisits hwalk).sub.trans hsub, ?_⟩
              refine ih (hfs.trans hlater) hvisits hname hlast ?_ hwalk
              rw [List.length_append, List.length_singleton]
              omega
          exact hvisited.elim (fun hnot => hnot hfinal) fun hnot => hnot (hstep.sub.any hfinal)
        · have hnotMem : name ∉ child :: left := by simp [hleft, Ne.symm heq]
          exact hgone hnotMem (hstep.sub.any hfinal)

end System

/-! ### Only tracked files -/

/-- Stale files are gone, the entries of the target are there, files that were not tracked and files
outside the worktree are kept, and no other file is written. -/
structure OnlyTracked (input : CheckoutInput) (final : Disk) : Prop where
  stale_gone : ∀ p, input.Stale p → ¬ System.HasLeaf final (input.root ++ p.names)
  target_written : ∀ p leaf, input.target.lookup p = some leaf →
    final (input.root ++ p.names) = some leaf.1
  untracked_kept : ∀ p node, p ∉ input.tracked → p ∉ input.target.keys →
    input.before (input.root ++ p.names) = some node → node.isDir = false →
      final (input.root ++ p.names) = some node
  outside_kept : ∀ place node, ¬ input.root <+: place → input.before place = some node →
    node.isDir = false → final place = some node
  written_only : ∀ place node, final place = some node → node.isDir = false →
    input.before place = some node ∨
      ∃ p leaf, input.target.lookup p = some leaf ∧ place = input.root ++ p.names ∧ node = leaf.1

/-- Stale files that are there are found, what is found by a stale text is stale, and no file that was
not tracked stands above or below an entry of the target. -/
structure StaleOnly {input : CheckoutInput} (sys : System input) : Prop where
  found : ∀ p, input.Stale p → System.HasLeaf input.written (input.root ++ p.names) → sys.Found p
  finds : sys.FindsStaleOnly
  clear : ∀ p node, p ∉ input.tracked → p ∉ input.target.keys →
    input.before (input.root ++ p.names) = some node → node.isDir = false →
      ∀ q ∈ input.target.keys,
        ¬ StrictPrefix p.names q.names ∧ ¬ StrictPrefix q.names p.names

section Checkout

variable {input : CheckoutInput} {sys : System input} {final : Disk}

/-- A checkout that succeeds removes step by step from the written disk. -/
theorem removals_checkoutTree (h : sys.checkoutTree = .ok final) :
    sys.Removals input.written final ∧
      sys.removeStaleFiles (sys.maxNames + 1) input.written [] = .ok final := by
  rw [System.checkoutTree] at h
  split_ifs at h with hchecks hwrites
  exact ⟨System.removals_removeStaleFiles (Sub.refl _) .root h, h⟩

theorem not_stale_outside {place : List Name} (h : ¬ input.root <+: place) :
    ¬ ∃ p, input.Stale p ∧ place = input.root ++ p.names := by
  rintro ⟨p, -, rfl⟩
  exact h (List.prefix_append _ _)

/-- A place below the worktree is stale only if its path is. -/
theorem not_stale_below {p : RelaPath} (h : ¬ input.Stale p) :
    ¬ ∃ q, input.Stale q ∧ input.root ++ p.names = input.root ++ q.names := by
  rintro ⟨q, hq, heq⟩
  refine h ?_
  obtain ⟨names, hnames⟩ := p
  obtain ⟨names', hnames'⟩ := q
  obtain rfl : names = names' := List.append_cancel_left heq
  exact hq

/-- The files of the written disk are entries or as before. -/
theorem written_leaf {place : List Name} {node : Node Name FileData}
    (h : input.written place = some node) (hleaf : node.isDir = false) :
    input.before place = some node ∨
      ∃ p leaf, input.target.lookup p = some leaf ∧ place = input.root ++ p.names ∧
        node = leaf.1 := by
  by_cases hroot : input.root <+: place
  · obtain ⟨names, rfl⟩ := hroot
    rcases CheckoutInput.written_cases (by rw [h, Option.isSome_some]) with
      ⟨p, leaf, rfl, hlookup, hwritten⟩ | ⟨p, hp, habove⟩ | ⟨hbefore, -⟩
    · exact .inr ⟨p, leaf, hlookup, rfl, Option.some.inj (h.symm.trans hwritten)⟩
    · have hdir := CheckoutInput.isDir_above_target hp habove
      rw [h, Option.any_some, hleaf] at hdir
      cases hdir
    · exact .inl (hbefore ▸ h)
  · exact .inl (by rwa [CheckoutInput.written_outside hroot] at h)

/-- A file that was not tracked, with no entry at, above or below it, is as before. -/
theorem written_untracked (h : StaleOnly sys) {p : RelaPath} {node : Node Name FileData}
    (htracked : p ∉ input.tracked) (htarget : p ∉ input.target.keys)
    (hbefore : input.before (input.root ++ p.names) = some node) (hleaf : node.isDir = false) :
    input.written (input.root ++ p.names) = some node := by
  have hentry : input.entryAt p.names = none := by
    rw [CheckoutInput.entryAt_names]
    exact Finmap.lookup_eq_none.mpr fun hmem => htarget (Finmap.mem_keys.mpr hmem)
  rw [CheckoutInput.written_eq_before hentry (h.clear p node htracked htarget hbefore hleaf)]
  exact hbefore

/-- A checkout that succeeds touches only tracked files. -/
theorem checkoutTree_onlyTracked (h : StaleOnly sys) :
    ∀ final, sys.checkoutTree = .ok final → OnlyTracked input final := by
  intro final hrun
  obtain ⟨hremovals, hwalk⟩ := removals_checkoutTree hrun
  have hkeeps := System.Removals.keepsFiles h.finds hremovals
  refine ⟨fun p hp hleaf => ?_, fun p leaf hlookup => ?_, fun p node htracked htarget hbefore hleaf => ?_,
    fun place node houtside hbefore hleaf => ?_, fun place node hnode hleaf => ?_⟩
  · have hfound := h.found p hp (hremovals.sub.any hleaf)
    exact System.clears_removeStaleFiles .refl .root hfound List.nil_prefix p.nonempty.symm
      (by omega) hwalk hleaf
  · have hnot : ¬ input.Stale p := fun hstale =>
      hstale.2 (Finmap.mem_keys.mpr (Finmap.mem_of_lookup_eq_some hlookup))
    exact hkeeps _ _ (CheckoutInput.written_target hlookup) leaf.2 (not_stale_below hnot)
  · have hnot : ¬ input.Stale p := fun hstale => htracked hstale.1
    exact hkeeps _ _ (written_untracked h htracked htarget hbefore hleaf) hleaf (not_stale_below hnot)
  · rw [← CheckoutInput.written_outside houtside] at hbefore
    exact hkeeps place node hbefore hleaf (not_stale_outside houtside)
  · exact written_leaf (hremovals.sub _ _ hnode) hleaf

end Checkout

/-! ### Two worktrees -/

theorem mem_of_written {input : CheckoutInput} {place : List Name} {name : Name}
    (h : (input.written (place ++ [name])).isSome = true) :
    name ∈ input.root ∨ (∃ p ∈ input.target.keys, name ∈ p.names) ∨
      (input.before (place ++ [name])).isSome = true := by
  by_cases hroot : input.root <+: place ++ [name]
  · obtain ⟨names, hnames⟩ := hroot
    have hmem : name ∈ input.root ∨ name ∈ names := by
      rw [← List.mem_append, hnames]
      simp
    rw [← hnames] at h
    rcases CheckoutInput.written_cases h with ⟨p, leaf, rfl, hlookup, -⟩ | ⟨p, hp, habove⟩ |
      ⟨hbefore, -⟩
    · have hp : p ∈ input.target.keys := Finmap.mem_keys.mpr (Finmap.mem_of_lookup_eq_some hlookup)
      exact hmem.imp_right fun hname => .inl ⟨p, hp, hname⟩
    · exact hmem.imp_right fun hname => .inl ⟨p, hp, habove.1.subset hname⟩
    · rw [hbefore, hnames] at h
      exact .inr (.inr h)
  · rw [CheckoutInput.written_outside hroot] at h
    exact .inr (.inr h)

theorem isName_replacement : "\uFFFD".toList ≠ [] ∧ '/' ∉ "\uFFFD".toList := by decide

/-- A system that knows all names and removes what it is told to. -/
def listingSystem (input : CheckoutInput) (names : List Name)
    (h : ∀ place name, (input.written (place ++ [name])).isSome = true → name ∈ names) :
    System input where
  maxLinks := 40
  fits path := path.length ≤ 2048
  maxNames := 2048
  fits_length _ hfits := of_decide_eq_true hfits
  readDir fs place := names.filter fun name => (fs (place ++ [name])).isSome
  mem_readDir fs hsub place name := by
    rw [List.mem_filter, and_iff_right_iff_imp]
    exact fun hsome => h place name (hsub.isSome hsome)
  unread _ _ _ := false
  unread_gone _ _ _ hunread := by cases hunread
  removable _ := true
  lossy
    | .text c => c
    | .bytes _ => Component.lit "\uFFFD" isName_replacement
  lossy_text _ := rfl
  checksOut := true
  writesIndex := true

def repoName : Name := .text (Component.lit "repo")

def docsName : Name := .text (Component.lit "docs")

def notesName : Name := .text (Component.lit "notes")

def draftName : Name := .text (Component.lit "draft")

def draftFile (content : UInt8) : Node Name FileData := .file ⟨[content], false⟩

/-- A tracked file in a directory; and a file of the same name that is not tracked, in another. -/
def draftEntries : List (List Name × Node Name FileData) :=
  [([], .dir true true), ([repoName], .dir true true), ([repoName, docsName], .dir true true),
    ([repoName, docsName, draftName], draftFile 1), ([repoName, notesName], .dir true true),
    ([repoName, notesName, draftName], draftFile 2)]

/-- The target has a link in place of the first directory. -/
def linkedInput : CheckoutInput where
  root := [repoName]
  before := ofList draftEntries
  wellFormed := wellFormed_ofList (by decide +kernel)
  root_isDir := by decide +kernel
  oldIndex := some [⟨[docsName, draftName], by simp⟩]
  target := Finmap.singleton ⟨[docsName], by simp⟩ ⟨.link ⟨false, [.down notesName]⟩, rfl⟩
  target_leaf := by decide +kernel

theorem mem_draftNames {place : List Name} {name : Name}
    (h : (ofList draftEntries (place ++ [name])).isSome = true) :
    name ∈ [repoName, docsName, notesName, draftName] := by
  have hmem := mem_of_ofList h
  have hlast : ∀ place ∈ draftEntries.map Prod.fst, ∀ name ∈ place.getLast?,
      name ∈ [repoName, docsName, notesName, draftName] := by decide +kernel
  exact hlast _ hmem name (by simp)

def linkedSystem : System linkedInput :=
  listingSystem linkedInput [repoName, docsName, notesName, draftName] fun _ name h => by
    rcases mem_of_written h with hroot | ⟨p, hp, hname⟩ | hbefore
    · have hname : name = repoName := by simpa [linkedInput] using hroot
      simp [hname]
    · have hname : name = docsName := by
        obtain rfl := (Finmap.mem_singleton _ _ _).mp (Finmap.mem_keys.mp hp)
        simpa using hname
      simp [hname]
    · exact mem_draftNames hbefore

/-- The walk removes the file of the other directory through the link. -/
theorem not_onlyTracked :
    ¬ ∀ final, linkedSystem.checkoutTree = .ok final → OnlyTracked linkedInput final := by
  intro h
  have hgone : (linkedSystem.checkoutTree).toOption.map
      (fun fs => fs [repoName, notesName, draftName]) = some none := by decide +kernel
  obtain ⟨final, hrun, hnone⟩ := Option.map_eq_some_iff.mp hgone
  have hok : linkedSystem.checkoutTree = .ok final := by
    cases hresult : linkedSystem.checkoutTree with
    | error e =>
      rw [hresult] at hrun
      cases hrun
    | ok disk =>
      rw [hresult] at hrun
      rw [Option.some.inj hrun]
  have hkept := (h final hok).untracked_kept ⟨[notesName, draftName], by simp⟩ (draftFile 2)
    (by decide +kernel) (by decide +kernel) (by decide +kernel) rfl
  have heq : final [repoName, notesName, draftName] = some (draftFile 2) := hkept
  rw [hnone] at heq
  cases heq

/-! ### A worktree with one stale file -/

def staleEntries : List (List Name × Node Name FileData) :=
  [([], .dir true true), ([repoName], .dir true true), ([repoName, draftName], draftFile 1)]

def draftPath : RelaPath := ⟨[draftName], by simp⟩

/-- The target is empty. -/
def staleInput : CheckoutInput where
  root := [repoName]
  before := ofList staleEntries
  wellFormed := wellFormed_ofList (by decide +kernel)
  root_isDir := by decide +kernel
  oldIndex := some [draftPath]
  target := ∅
  target_leaf := by simp

theorem mem_staleNames {place : List Name} {name : Name}
    (h : (ofList staleEntries (place ++ [name])).isSome = true) :
    place ++ [name] = [repoName] ∨ place ++ [name] = [repoName, draftName] := by
  have hmem := mem_of_ofList h
  simpa [staleEntries] using hmem

theorem written_staleInput : staleInput.written = ofList staleEntries := by
  funext place
  have hentry (names : List Name) : staleInput.entryAt names = none := by
    rw [CheckoutInput.entryAt]
    split_ifs
    · exact Finmap.lookup_empty _
    · rfl
  rw [CheckoutInput.written]
  split_ifs
  · rw [CheckoutInput.writtenAt, hentry]
    simp [staleInput]
  · rfl

def staleSystem : System staleInput :=
  listingSystem staleInput [repoName, draftName] fun place name h => by
    rw [written_staleInput] at h
    rcases mem_staleNames h with heq | heq
    · have hlast : name = repoName := by simpa using congrArg List.getLast? heq
      simp [hlast]
    · have hlast : name = draftName := by simpa using congrArg List.getLast? heq
      simp [hlast]

/-- There is no other name than that of the file. -/
theorem eq_draftName {name : Name}
    (h : (staleInput.written (staleInput.root ++ [name])).isSome = true) : name = draftName := by
  rw [written_staleInput] at h
  rcases mem_staleNames h with heq | heq
  · simp [staleInput] at heq
  · simpa [staleInput] using heq

theorem eq_nil_of_visits {dir : List Name} (h : staleSystem.Visits dir) : dir = [] := by
  induction h with
  | root => rfl
  | @child dir name _ _ _ hdir ih =>
    subst ih
    have hname : name = draftName := by
      refine eq_draftName (Option.isSome_iff_ne_none.mpr fun hnone => ?_)
      have hnowhere := resolve_of_none staleSystem.maxLinks hnone
      rw [System.isDir, System.lookup, List.nil_append, List.map_singleton, hnowhere] at hdir
      simp at hdir
    subst hname
    revert hdir
    decide +kernel

theorem staleOnly_staleSystem : StaleOnly staleSystem where
  found p hp _ := by
    obtain rfl : p = draftPath := by simpa [staleInput, CheckoutInput.tracked] using hp.1
    refine ⟨by decide +kernel, fun dir name hnames => ?_, by decide +kernel, fun dir hwithin hne => ?_⟩
    · obtain ⟨rfl, rfl⟩ : dir = [] ∧ name = draftName := by
        cases dir with
        | nil => exact ⟨rfl, by simpa [draftPath] using hnames⟩
        | cons _ dir => simp [draftPath] at hnames
      decide +kernel
    · obtain rfl : dir = [] := by
        rcases List.prefix_cons_iff.mp hwithin with rfl | ⟨rest, rfl, hrest⟩
        · rfl
        · rw [List.prefix_nil.mp hrest] at hne
          exact absurd rfl hne
      decide +kernel
  finds dir name place hvisits _ _ hplace _ _ := by
    obtain rfl := eq_nil_of_visits hvisits
    obtain ⟨-, above, habove, -, hsome, rfl⟩ := System.entryPlace_eq_some.mp hplace
    obtain rfl : staleInput.root = above := Option.some.inj habove
    refine ⟨draftPath, ⟨by simp [staleInput, CheckoutInput.tracked], by simp [staleInput]⟩, ?_⟩
    rw [eq_draftName hsome]
    rfl
  clear p node _ _ _ _ q hq := by simp [staleInput] at hq

theorem checkoutTree_onlyTracked_stale :
    ∃ final, staleSystem.checkoutTree = .ok final ∧ OnlyTracked staleInput final := by
  obtain ⟨final, hrun⟩ := ExceptRun.exists_ok
    (show staleSystem.checkoutTree.toBool = true by decide +kernel)
  exact ⟨final, hrun, checkoutTree_onlyTracked staleOnly_staleSystem final hrun⟩

end Maw.Checkout
