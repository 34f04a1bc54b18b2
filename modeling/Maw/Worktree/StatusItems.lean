import Maw.Library.LastWrite
import Maw.Library.PointwiseFold
import Maw.Worktree.Status

/-!
# The status from the items of git

Git reports the difference of HEAD and the index and that of the index and the worktree as one
stream of items, in any order. The status relative to HEAD collects them by path. In a linked
worktree the items do not know the common `info/exclude`, and an own matcher filters them.

## Main definitions

* `RelaPath` — a path of bytes, which is text or not.
* `StatusRepo`, `Emits` — a repository, and the items that it gives rise to.
* `statusHeadToWorktree` — the status that is put together from the items.
* `MissesNothing` — every change is reported, and as what it is.

## Main results

* `mem_status_iff` — what is reported, from the two halves.
* `missesNothing_iff` — when nothing is missed.
* `not_missesNothing` — a file that a `.gitignore` includes again is hidden.
-/

open KeyedSort LastWrite

namespace Maw.StatusItems

/-! ### Paths -/

instance decidableEqByteArray : DecidableEq ByteArray := fun a b =>
  decidable_of_iff (a.data = b.data) ByteArray.ext_iff.symm

/-- A name on disk: text, or bytes that are no text. -/
inductive Name
  | text (c : Component)
  | bytes (b : {b : ByteArray // ¬ b.IsValidUTF8})
  deriving DecidableEq

def Name.text? : Name → Option Component
  | text c => some c
  | bytes _ => none

/-- A path relative to the worktree. -/
structure RelaPath where
  names : List Name
  nonempty : names ≠ []
  deriving DecidableEq

namespace RelaPath

/-- The path as text, if it is text. -/
def toStr (p : RelaPath) : Option Path :=
  (p.names.mapM Name.text?).bind fun components =>
    if h : components ≠ [] then some ⟨components, h⟩ else none

def ofPath (p : Path) : RelaPath := ⟨p.components.map .text, by simpa using p.nonempty⟩

theorem mapM_text? (names : List Name) (components : List Component) :
    names.mapM Name.text? = some components ↔ names = components.map .text := by
  induction names generalizing components with
  | nil => simp [eq_comm]
  | cons name names ih =>
    cases name with
    | text c =>
      cases components with
      | nil => simp [Name.text?, Option.bind_eq_some_iff]
      | cons c' components => simp [Name.text?, Option.bind_eq_some_iff, ih, and_comm]
    | bytes b =>
      cases components <;> simp [Name.text?]

/-- Text is read back. -/
theorem toStr_eq_some {b : RelaPath} {p : Path} : b.toStr = some p ↔ b = ofPath p := by
  obtain ⟨names, hnames⟩ := b
  obtain ⟨components, hcomponents⟩ := p
  simp only [toStr, ofPath, Option.bind_eq_some_iff, RelaPath.mk.injEq]
  constructor
  · rintro ⟨cs, hcs, h⟩
    split_ifs at h with hne
    obtain rfl : cs = components := by simpa using h
    exact (mapM_text? names cs).mp hcs
  · intro h
    exact ⟨components, (mapM_text? names components).mpr h, by simp [hcomponents]⟩

@[simp]
theorem toStr_ofPath (p : Path) : (ofPath p).toStr = some p := toStr_eq_some.mpr rfl

/-- The directories above a path and the path itself, and whether each is a directory. -/
def prefixes (p : RelaPath) : List (List Name × Bool) :=
  (List.range p.names.length).map fun i => (p.names.take (i + 1), i + 1 < p.names.length)

end RelaPath

open RelaPath

/-! ### What is ignored -/

/-- A pattern that matches: it excludes or includes again. -/
inductive Pattern
  | positive
  | negative
  deriving DecidableEq, Repr

inductive Case
  | sensitive
  | fold
  deriving DecidableEq, Repr

/-- The last pattern of a file of patterns that matches a path. -/
abbrev Search := List Name → Bool → Option Pattern

/-- What git ignores: below a directory that is excluded everything is. -/
def isIgnored (search : Search) (p : RelaPath) : Bool :=
  p.prefixes.any fun d => search d.1 d.2 = some .positive

/-- What the matcher of the common `info/exclude` excludes: the last match counts. -/
def isExcluded (search : Search) (p : RelaPath) : Bool :=
  p.prefixes.foldl (fun excluded d =>
    match search d.1 d.2 with
    | some pattern => pattern = .positive
    | none => excluded) false

/-- The files of patterns. -/
structure IgnoreRules where
  /-- The files `.gitignore` at any level; the deepest that has a match counts. -/
  gitignore : Search
  /-- The common `info/exclude`. -/
  commonExclude : Case → Search
  /-- The `info/exclude` of a linked worktree, which git does not read. -/
  worktreeExclude : Search
  globalExcludes : Search
  case : Case
  linked : Bool

namespace IgnoreRules

variable (rules : IgnoreRules)

/-- The order of precedence. -/
def ranked (exclude : Search) : Search := fun p isDir =>
  (rules.gitignore p isDir).or ((exclude p isDir).or (rules.globalExcludes p isDir))

def gitIgnored (p : RelaPath) : Bool := isIgnored (rules.ranked (rules.commonExclude rules.case)) p

/-- What the items leave out: in a linked worktree they know another `info/exclude`. -/
def itemsIgnored (p : RelaPath) : Bool :=
  isIgnored (rules.ranked
    (if rules.linked then rules.worktreeExclude else rules.commonExclude rules.case)) p

/-- The matcher that is built for a linked worktree. -/
def build : Option Search :=
  if rules.linked then some (rules.commonExclude .sensitive) else none

end IgnoreRules

/-! ### A repository and its items -/

inductive IndexEntry
  | staged (e : MaterializedEntry)
  | intentToAdd
  | unmerged
  deriving DecidableEq, Repr

/-- HEAD, the index and what stands on disk. -/
structure StatusRepo where
  head : FiniteMap RelaPath MaterializedEntry
  index : FiniteMap RelaPath IndexEntry
  disk : FiniteMap RelaPath Occupant
  rules : IgnoreRules

namespace StatusRepo

variable (repo : StatusRepo) (p : RelaPath)

def worktreeEntry : Option MaterializedEntry := (repo.disk.lookup p).bind Occupant.entry

/-- What stands on disk and is not in the index. -/
def Untracked : Prop :=
  repo.index.lookup p = none ∧ ∃ occupant, repo.disk.lookup p = some occupant ∧ occupant ≠ .special

/-- What a status has to report: a path of HEAD or the index that is not in the worktree as in HEAD, or
an untracked one that git does not ignore. -/
def Differs : Prop :=
  ((repo.head.lookup p ≠ none ∨ repo.index.lookup p ≠ none) ∧
      repo.worktreeEntry p ≠ repo.head.lookup p) ∨
    (repo.Untracked p ∧ repo.rules.gitIgnored p = false)

/-- The difference of HEAD and the index. -/
def stagedStatus : Option FileStatus :=
  match repo.head.lookup p, repo.index.lookup p with
  | none, some (.staged _) => some .added
  | some e, some (.staged e') => if e = e' then none else some .modified
  | some _, none | some _, some .intentToAdd => some .deleted
  | none, none | none, some .intentToAdd => none
  | _, some .unmerged => none

/-- A path that is in the index and in the worktree as in the index. -/
def Unchanged : Prop :=
  ∃ e, repo.index.lookup p = some (.staged e) ∧ repo.worktreeEntry p = some e

end StatusRepo

/-- How an item between index and worktree is summed up. -/
inductive Summary
  | removed
  | added
  | modified
  | typeChange
  | renamed
  | copied
  | intentToAdd
  | conflict
  deriving DecidableEq, Repr

/-- An item between HEAD and index. -/
inductive ChangeRef
  | addition (location : RelaPath)
  | deletion (location : RelaPath)
  | modification (location : RelaPath)
  | rewrite (source location : RelaPath) (copy : Bool)
  deriving DecidableEq

/-- An item between index and worktree. -/
inductive IndexWorktree
  /-- An item that needs no more than an update of the index has no summary. -/
  | modification (relaPath : RelaPath) (summary : Option Summary)
  | directoryContents (relaPath : RelaPath) (untracked : Bool)
  deriving DecidableEq

inductive Item
  | treeIndex (change : ChangeRef)
  | indexWorktree (item : IndexWorktree)
  deriving DecidableEq

namespace IndexWorktree

def relaPath : IndexWorktree → RelaPath
  | modification p _ | directoryContents p _ => p

def summary : IndexWorktree → Option Summary
  | modification _ summary => summary
  | directoryContents _ untracked => if untracked then some .added else none

end IndexWorktree

def Summary.status : Summary → FileStatus
  | added | intentToAdd | copied => .added
  | modified | typeChange | conflict => .modified
  | removed => .deleted
  | renamed => .renamed

section Stream

variable (repo : StatusRepo)

/-- A change that HEAD and the index show; of an unmerged path nothing is known but whether HEAD has
it. -/
def Justified (p : RelaPath) (k : FileStatus) : Prop :=
  repo.stagedStatus p = some k ∨
    repo.index.lookup p = some .unmerged ∧ (k = .added ↔ repo.head.lookup p = none)

def ChangeRef.Justified : ChangeRef → Prop
  | addition p => StatusItems.Justified repo p .added
  | deletion p => StatusItems.Justified repo p .deleted
  | modification p => StatusItems.Justified repo p .modified
  | rewrite source p copy => StatusItems.Justified repo p .added ∧
      (copy = false → StatusItems.Justified repo source .deleted) ∧
        (copy = true → repo.head.lookup source ≠ none)

/-- The change of a path that an item stands for. -/
def ChangeRef.Tells : ChangeRef → RelaPath → FileStatus → Prop
  | addition p, q, k => q = p ∧ k = .added
  | deletion p, q, k => q = p ∧ k = .deleted
  | modification p, q, k => q = p ∧ k = .modified
  | rewrite source p copy, q, k =>
    (q = p ∧ k = .added) ∨ (copy = false ∧ q = source ∧ k = .deleted)

/-- How a path is summed up between index and worktree, if it is in the index. -/
def Summarized (p : RelaPath) (summary : Summary) : Prop :=
  match repo.index.lookup p, repo.disk.lookup p with
  | none, _ => False
  | some (.staged _), none | some .intentToAdd, none => summary = .removed
  | some (.staged e), some occupant =>
    occupant.entry ≠ some e ∧ (summary = .modified ∨ summary = .typeChange)
  | some .intentToAdd, some _ => summary = .intentToAdd
  | some .unmerged, _ => summary = .conflict

/-- The items that a repository gives rise to, in some order. -/
structure Emits (items : List Item) : Prop where
  change_justified : ∀ change, .treeIndex change ∈ items → change.Justified repo
  change_of_staged : ∀ p k, repo.stagedStatus p = some k →
    ∃ change, .treeIndex change ∈ items ∧ change.Tells p k
  summarized : ∀ p summary, .indexWorktree (.modification p (some summary)) ∈ items →
    Summarized repo p summary
  exists_summary : ∀ p, (∃ summary, Summarized repo p summary) →
    ∃ summary, .indexWorktree (.modification p (some summary)) ∈ items
  untracked_iff : ∀ p, .indexWorktree (.directoryContents p true) ∈ items ↔
    repo.Untracked p ∧ repo.rules.itemsIgnored p = false

end Stream

/-! ### The status -/

/-- The status of each half. -/
abbrev Halves := Option FileStatus × Option FileStatus

/-- What is collected, by the text of the path. -/
abbrev Acc := FiniteMap Path Halves

namespace Acc

def halves (acc : Acc) (p : Path) : Halves := (acc.lookup p).getD (none, none)

def setStaged (acc : Acc) (k : FileStatus) : Option Path → Acc
  | none => acc
  | some p => acc.insert p (some k, (acc.halves p).2)

def setUnstaged (acc : Acc) (k : FileStatus) : Option Path → Acc
  | none => acc
  | some p => acc.insert p ((acc.halves p).1, some k)

variable {acc : Acc} {k : FileStatus} {b : Option Path} {p : Path}

theorem halves_setStaged :
    (acc.setStaged k b).halves p = if b = some p then (some k, (acc.halves p).2) else acc.halves p := by
  cases b with
  | none => rfl
  | some q =>
    rw [setStaged, halves, FiniteMap.lookup_insert]
    by_cases h : q = p
    · simp [h]
    · simp [h, Ne.symm h, halves]

theorem halves_setUnstaged : (acc.setUnstaged k b).halves p =
    if b = some p then ((acc.halves p).1, some k) else acc.halves p := by
  cases b with
  | none => rfl
  | some q =>
    rw [setUnstaged, halves, FiniteMap.lookup_insert]
    by_cases h : q = p
    · simp [h]
    · simp [h, Ne.symm h, halves]

end Acc

section Status

variable (common : Option Search)

/-- An untracked path that is text and that the common `info/exclude` excludes. -/
def itemIsCommonExcluded : IndexWorktree → Bool
  | .modification _ _ => false
  | .directoryContents p untracked =>
    untracked && p.toStr.isSome && common.any fun search => isExcluded search p

/-- Collect one item. -/
def collect (acc : Acc) : Item → Acc
  | .indexWorktree item =>
    if itemIsCommonExcluded common item then acc
    else
      match item.summary with
      | none => acc
      | some summary => acc.setUnstaged summary.status item.relaPath.toStr
  | .treeIndex (.rewrite source location _) =>
    (acc.setStaged .deleted source.toStr).setStaged .added location.toStr
  | .treeIndex (.addition p) => acc.setStaged .added p.toStr
  | .treeIndex (.deletion p) => acc.setStaged .deleted p.toStr
  | .treeIndex (.modification p) => acc.setStaged .modified p.toStr

/-- The paths with their status relative to HEAD, in the order of their text. -/
def statusHeadToWorktree (items : List Item) : List (Path × FileStatus) :=
  let acc := items.foldl (collect common) ∅
  (inOrderOf Path.slashed Path.slashed_injective acc.keys).filterMap fun p =>
    (netHeadToWorktree (acc.halves p).1 (acc.halves p).2).map fun status => (p, status)

/-- What an item writes to the first half of a path. -/
def stagedWrite (p : Path) : Item → Option (Option FileStatus)
  | .indexWorktree _ => none
  | .treeIndex (.rewrite source location _) =>
    if location.toStr = some p then some (some .added)
    else if source.toStr = some p then some (some .deleted) else none
  | .treeIndex (.addition q) => if q.toStr = some p then some (some .added) else none
  | .treeIndex (.deletion q) => if q.toStr = some p then some (some .deleted) else none
  | .treeIndex (.modification q) => if q.toStr = some p then some (some .modified) else none

/-- What an item writes to the second half of a path. -/
def unstagedWrite (p : Path) : Item → Option (Option FileStatus)
  | .treeIndex _ => none
  | .indexWorktree item =>
    if itemIsCommonExcluded common item then none
    else if item.relaPath.toStr = some p then item.summary.map fun summary => some summary.status
    else none

variable {common}

theorem halves_collect (acc : Acc) (item : Item) (p : Path) : (collect common acc item).halves p =
    ((stagedWrite p item).getD (acc.halves p).1,
      (unstagedWrite common p item).getD (acc.halves p).2) := by
  cases item with
  | indexWorktree item =>
    simp only [collect, stagedWrite, unstagedWrite, Option.getD_none]
    split_ifs with hexcluded hpath
    · rfl
    · cases item.summary <;> simp [Acc.halves_setUnstaged, hpath]
    · cases item.summary <;> simp [Acc.halves_setUnstaged, hpath]
  | treeIndex change =>
    cases change with
    | rewrite source location copy =>
      simp only [collect, stagedWrite, unstagedWrite, Acc.halves_setStaged, Option.getD_none]
      split_ifs <;> rfl
    | _ =>
      simp only [collect, stagedWrite, unstagedWrite, Acc.halves_setStaged, Option.getD_none]
      split_ifs <;> rfl

/-- Each half of a path is what the last item that tells of it writes. -/
theorem halves_foldl (items : List Item) (p : Path) :
    (items.foldl (collect common) ∅).halves p =
      (lastWrite (stagedWrite p) none items, lastWrite (unstagedWrite common p) none items) := by
  have hcells := PointwiseFold.foldl_cells Acc.halves
    (fun item p v => ((stagedWrite p item).getD v.1, (unstagedWrite common p item).getD v.2))
    (fun acc item p => halves_collect acc item p) items ∅ p
  rw [hcells]
  exact PointwiseFold.foldl_prod (fun v item => (stagedWrite p item).getD v)
    (fun v item => (unstagedWrite common p item).getD v) items none none

/-- A path is reported by its two halves. -/
theorem mem_status_iff {items : List Item} {p : Path} {status : FileStatus} :
    (p, status) ∈ statusHeadToWorktree common items ↔
      netHeadToWorktree (lastWrite (stagedWrite p) none items)
        (lastWrite (unstagedWrite common p) none items) = some status := by
  have hhalves := @halves_foldl common items p
  rw [statusHeadToWorktree, List.mem_filterMap]
  constructor
  · rintro ⟨q, -, hq⟩
    obtain ⟨_, hstatus, he⟩ := Option.map_eq_some_iff.mp hq
    obtain ⟨rfl, rfl⟩ := Prod.mk.inj he
    rw [hhalves] at hstatus
    exact hstatus
  · intro h
    refine ⟨p, ?_, by rw [hhalves, h]; rfl⟩
    rw [mem_inOrderOf, Finmap.mem_keys]
    by_contra hnone
    rw [Acc.halves, Finmap.lookup_eq_none.mpr hnone] at hhalves
    obtain ⟨hstaged, hunstaged⟩ := Prod.mk.inj hhalves
    rw [← hstaged, ← hunstaged] at h
    cases h

/-- Each path is reported once. -/
theorem nodup_status (items : List Item) :
    ((statusHeadToWorktree common items).map Prod.fst).Nodup := by
  rw [statusHeadToWorktree]
  refine PointwiseFold.nodup_map_filterMap ?_ (?_ : (List.map id _).Nodup)
  · intro p entry h
    obtain ⟨status, -, rfl⟩ := Option.map_eq_some_iff.mp h
    rfl
  · rw [List.map_id]
    exact nodup_inOrderOf

end Status

/-! ### The halves of a path -/

section Halves

variable {repo : StatusRepo} {items : List Item} {p : Path}

/-- Whether an untracked path does not show. -/
def hidden (rules : IgnoreRules) (p : RelaPath) : Bool :=
  rules.itemsIgnored p || rules.build.any fun search => isExcluded search p

/-- The difference of the index and the worktree, as far as it shows. -/
def StatusRepo.unstagedStatus (repo : StatusRepo) (p : RelaPath) : Option FileStatus :=
  match repo.index.lookup p, repo.disk.lookup p with
  | none, none => none
  | none, some occupant =>
    if occupant = .special ∨ hidden repo.rules p = true then none else some .added
  | some (.staged _), none | some .intentToAdd, none => some .deleted
  | some (.staged e), some occupant => if occupant.entry = some e then none else some .modified
  | some .intentToAdd, some _ => some .added
  | some .unmerged, _ => some .modified

theorem unstagedStatus_of_untracked {b : RelaPath} (h : repo.Untracked b) :
    repo.unstagedStatus b = if hidden repo.rules b = true then none else some .added := by
  obtain ⟨hindex, occupant, hdisk, hspecial⟩ := h
  simp [StatusRepo.unstagedStatus, hindex, hdisk, hspecial]

theorem unstagedStatus_of_summarized {b : RelaPath} {summary : Summary}
    (h : Summarized repo b summary) : repo.unstagedStatus b = some summary.status := by
  rw [StatusRepo.unstagedStatus]
  unfold Summarized at h
  cases hindex : repo.index.lookup b with
  | none => simp [hindex] at h
  | some entry =>
    cases entry with
    | staged e =>
      cases hdisk : repo.disk.lookup b with
      | none =>
        obtain rfl : summary = .removed := by simpa [hindex, hdisk] using h
        rfl
      | some occupant =>
        obtain ⟨hne, rfl | rfl⟩ : occupant.entry ≠ some e ∧
            (summary = .modified ∨ summary = .typeChange) := by simpa [hindex, hdisk] using h
        · exact if_neg hne
        · exact if_neg hne
    | intentToAdd =>
      cases hdisk : repo.disk.lookup b with
      | none =>
        obtain rfl : summary = .removed := by simpa [hindex, hdisk] using h
        rfl
      | some occupant =>
        obtain rfl : summary = .intentToAdd := by simpa [hindex, hdisk] using h
        rfl
    | unmerged =>
      obtain rfl : summary = .conflict := by simpa [hindex] using h
      rfl

/-- What shows is untracked or summed up. -/
theorem exists_of_unstagedStatus {b : RelaPath} (h : repo.unstagedStatus b ≠ none) :
    (repo.Untracked b ∧ hidden repo.rules b = false) ∨ ∃ summary, Summarized repo b summary := by
  rw [StatusRepo.unstagedStatus] at h
  unfold Summarized
  cases hindex : repo.index.lookup b with
  | none =>
    left
    cases hdisk : repo.disk.lookup b with
    | none => simp [hindex, hdisk] at h
    | some occupant =>
      obtain ⟨hspecial, hhidden⟩ : occupant ≠ .special ∧ hidden repo.rules b = false := by
        simpa [hindex, hdisk] using h
      exact ⟨⟨hindex, occupant, hdisk, hspecial⟩, hhidden⟩
  | some entry =>
    right
    cases entry with
    | staged e =>
      cases hdisk : repo.disk.lookup b with
      | none => exact ⟨.removed, rfl⟩
      | some occupant =>
        have hne : occupant.entry ≠ some e := by simpa [hindex, hdisk] using h
        exact ⟨.modified, hne, .inl rfl⟩
    | intentToAdd =>
      cases hdisk : repo.disk.lookup b with
      | none => exact ⟨.removed, rfl⟩
      | some occupant => exact ⟨.intentToAdd, rfl⟩
    | unmerged => exact ⟨.conflict, rfl⟩

theorem unstagedWrite_of_untracked (huntracked : itemIsCommonExcluded repo.rules.build
      (.directoryContents (ofPath p) true) = false) :
    unstagedWrite repo.rules.build p (.indexWorktree (.directoryContents (ofPath p) true)) =
      some (some .added) := by
  simp [unstagedWrite, huntracked, IndexWorktree.relaPath, IndexWorktree.summary, Summary.status]

/-- What is written to the second half is the difference of the index and the worktree. -/
theorem eq_of_unstagedWrite (h : Emits repo items) {item : Item} (hitem : item ∈ items)
    {c : Option FileStatus} (hwrite : unstagedWrite repo.rules.build p item = some c) :
    c = repo.unstagedStatus (ofPath p) := by
  cases item with
  | treeIndex change => cases hwrite
  | indexWorktree item =>
    rw [unstagedWrite] at hwrite
    split_ifs at hwrite with hexcluded hpath
    obtain ⟨summary, hsummary, rfl⟩ := Option.map_eq_some_iff.mp hwrite
    have hpath' := toStr_eq_some.mp hpath
    cases item with
    | modification q summary' =>
      obtain rfl : q = ofPath p := hpath'
      obtain rfl : summary' = some summary := hsummary
      exact (unstagedStatus_of_summarized (h.summarized _ _ hitem)).symm
    | directoryContents q untracked =>
      obtain rfl : q = ofPath p := hpath'
      cases untracked with
      | false => cases hsummary
      | true =>
        obtain rfl : Summary.added = summary := Option.some.inj hsummary
        obtain ⟨huntracked, hshown⟩ := (h.untracked_iff _).mp hitem
        have hbuild : (repo.rules.build.any fun search => isExcluded search (ofPath p)) = false := by
          simpa [itemIsCommonExcluded] using hexcluded
        rw [unstagedStatus_of_untracked huntracked, hidden, hshown, hbuild]
        rfl

/-- The second half of a path. -/
theorem lastWrite_unstaged (h : Emits repo items) :
    lastWrite (unstagedWrite repo.rules.build p) none items = repo.unstagedStatus (ofPath p) := by
  by_cases hwritten : ∃ item ∈ items, unstagedWrite repo.rules.build p item ≠ none
  · exact lastWrite_of_agree hwritten (fun item hitem c hc => eq_of_unstagedWrite h hitem hc) none
  · push Not at hwritten
    rw [lastWrite_of_none hwritten]
    by_contra hne
    rcases exists_of_unstagedStatus (Ne.symm hne) with ⟨huntracked, hshown⟩ | hsummary
    · obtain ⟨hitems, hbuild⟩ : repo.rules.itemsIgnored (ofPath p) = false ∧
          (repo.rules.build.any fun search => isExcluded search (ofPath p)) = false := by
        simpa only [hidden, Bool.or_eq_false_iff] using hshown
      have hnone := hwritten _ ((h.untracked_iff _).mpr ⟨huntracked, hitems⟩)
      rw [unstagedWrite_of_untracked (by simp [itemIsCommonExcluded, hbuild])] at hnone
      cases hnone
    · obtain ⟨summary, hitem⟩ := h.exists_summary _ hsummary
      have hnone := hwritten _ hitem
      simp [unstagedWrite, itemIsCommonExcluded, IndexWorktree.relaPath,
        IndexWorktree.summary] at hnone

/-- Whether an item tells of a path. -/
def Item.Names : Item → RelaPath → Prop
  | .indexWorktree _, _ => False
  | .treeIndex (.rewrite source location _), p => p = source ∨ p = location
  | .treeIndex (.addition q), p | .treeIndex (.deletion q), p | .treeIndex (.modification q), p => p = q

theorem stagedWrite_eq_none_iff {item : Item} :
    stagedWrite p item = none ↔ ¬ item.Names (ofPath p) := by
  cases item with
  | indexWorktree item => simp [stagedWrite, Item.Names]
  | treeIndex change =>
    cases change with
    | rewrite source location copy =>
      simp only [stagedWrite, Item.Names, toStr_eq_some]
      split_ifs with hlocation hsource
      · simp [hlocation]
      · simp [hsource]
      · simp [Ne.symm hlocation, Ne.symm hsource]
    | _ =>
      simp only [stagedWrite, Item.Names, toStr_eq_some]
      split_ifs with hpath
      · simp [hpath]
      · simp [Ne.symm hpath]

/-- The last item that tells of a path between HEAD and index is a copy of it. -/
def CopiedLast (items : List Item) (p : RelaPath) : Prop :=
  ∃ before location after, items = before ++ .treeIndex (.rewrite p location true) :: after ∧
    ∀ item ∈ after, ¬ item.Names p

theorem names_of_tells {change : ChangeRef} {b : RelaPath} {k : FileStatus}
    (h : change.Tells b k) : (Item.treeIndex change).Names b := by
  cases change with
  | rewrite source location copy =>
    rcases h with ⟨rfl, -⟩ | ⟨-, rfl, -⟩
    · exact .inr rfl
    · exact .inl rfl
  | _ => exact h.1

/-- What is added is not in HEAD. -/
theorem Justified.head_eq_none {b : RelaPath} (h : Justified repo b .added) :
    repo.head.lookup b = none := by
  rcases h with hstaged | ⟨-, hiff⟩
  · rw [StatusRepo.stagedStatus] at hstaged
    cases hhead : repo.head.lookup b with
    | none => rfl
    | some e =>
      cases hindex : repo.index.lookup b with
      | none => simp [hhead, hindex] at hstaged
      | some entry => cases entry <;> simp [hhead, hindex] at hstaged
  · exact hiff.mp rfl

/-- What is written to the first half is justified, or a deletion by a copy. -/
theorem justified_of_stagedWrite {change : ChangeRef} (h : change.Justified repo)
    {c : Option FileStatus} (hwrite : stagedWrite p (.treeIndex change) = some c) :
    (∃ k, c = some k ∧ Justified repo (ofPath p) k) ∨
      (c = some .deleted ∧ repo.head.lookup (ofPath p) ≠ none ∧
        ∃ location, change = .rewrite (ofPath p) location true) := by
  cases change with
  | rewrite source location copy =>
    obtain ⟨hadded, hsource, hcopy⟩ := h
    simp only [stagedWrite, toStr_eq_some] at hwrite
    split_ifs at hwrite with hl hs
    · exact .inl ⟨.added, (Option.some.inj hwrite).symm, hl ▸ hadded⟩
    · subst hs
      cases copy with
      | false => exact .inl ⟨.deleted, (Option.some.inj hwrite).symm, hsource rfl⟩
      | true => exact .inr ⟨(Option.some.inj hwrite).symm, hcopy rfl, location, rfl⟩
  | addition q | deletion q | modification q =>
    simp only [stagedWrite, toStr_eq_some] at hwrite
    split_ifs at hwrite with hq
    exact .inl ⟨_, (Option.some.inj hwrite).symm, hq ▸ h⟩

/-- The first half of a path: its change, or a deletion if it was copied last. -/
theorem staged_cases (h : Emits repo items) :
    (lastWrite (stagedWrite p) none items = none ∧ repo.stagedStatus (ofPath p) = none) ∨
      (∃ k, lastWrite (stagedWrite p) none items = some k ∧ Justified repo (ofPath p) k) ∨
        (lastWrite (stagedWrite p) none items = some .deleted ∧ CopiedLast items (ofPath p) ∧
          repo.head.lookup (ofPath p) ≠ none) := by
  by_cases hwritten : ∃ item ∈ items, stagedWrite p item ≠ none
  · obtain ⟨before, item, after, c, hitems, hwrite, hafter, hlast⟩ := exists_last_write hwritten none
    rw [hlast]
    cases item with
    | indexWorktree item => cases hwrite
    | treeIndex change =>
      have hmem : .treeIndex change ∈ items := hitems ▸ by simp
      rcases justified_of_stagedWrite (h.change_justified change hmem) hwrite with hk |
        ⟨hc, hhead, location, rfl⟩
      · exact .inr (.inl hk)
      · exact .inr (.inr ⟨hc, ⟨before, location, after, hitems,
          fun item hitem => stagedWrite_eq_none_iff.mp (hafter item hitem)⟩, hhead⟩)
  · push Not at hwritten
    refine .inl ⟨lastWrite_of_none hwritten none, ?_⟩
    by_contra hne
    obtain ⟨k, hk⟩ := Option.ne_none_iff_exists'.mp hne
    obtain ⟨change, hmem, htells⟩ := h.change_of_staged _ k hk
    exact stagedWrite_eq_none_iff.mp (hwritten _ hmem) (names_of_tells htells)

/-- A path that was copied last counts as deleted in the first half. -/
theorem lastWrite_of_copiedLast (h : Emits repo items) (hcopied : CopiedLast items (ofPath p)) :
    lastWrite (stagedWrite p) none items = some .deleted := by
  obtain ⟨before, location, after, rfl, hafter⟩ := hcopied
  obtain ⟨hadded, -, hcopy⟩ := h.change_justified (.rewrite (ofPath p) location true) (by simp)
  have hlocation : location ≠ ofPath p := by
    rintro rfl
    exact hcopy rfl hadded.head_eq_none
  rw [lastWrite_append, lastWrite_cons, lastWrite_of_none fun item hitem =>
    stagedWrite_eq_none_iff.mpr (hafter item hitem)]
  simp [stagedWrite, toStr_eq_some, hlocation]

end Halves

/-! ### What is reported -/

section Net

variable {x y : Option FileStatus}

theorem netHeadToWorktree_eq_none : netHeadToWorktree x y = none ↔
    (x = none ∧ y = none) ∨ (x = some .added ∧ y = some .deleted) := by
  rcases x with _ | x <;> rcases y with _ | y
  · simp [netHeadToWorktree]
  · simp [netHeadToWorktree]
  · simp [netHeadToWorktree]
  · cases x <;> cases y <;> simp [netHeadToWorktree]

theorem netHeadToWorktree_eq_deleted (h : netHeadToWorktree x y = some .deleted) :
    y = some .deleted ∨ (x = some .deleted ∧ y = none) := by
  rcases x with _ | x <;> rcases y with _ | y
  · cases h
  · exact .inl h
  · exact .inr ⟨h, rfl⟩
  · cases x <;> cases y <;> simp_all [netHeadToWorktree]

theorem netHeadToWorktree_eq_added (h : netHeadToWorktree x y = some .added) :
    x = some .added ∨ (x = none ∧ y = some .added) := by
  rcases x with _ | x <;> rcases y with _ | y
  · cases h
  · exact .inr ⟨rfl, h⟩
  · exact .inl h
  · cases x <;> cases y <;> simp_all [netHeadToWorktree]

end Net

/-- Every change is reported, once, and as what it is. -/
structure MissesNothing (repo : StatusRepo) (entries : List (Path × FileStatus)) : Prop where
  reported : ∀ b, repo.Differs b → ∃ p k, b.toStr = some p ∧ (p, k) ∈ entries
  once : (entries.map Prod.fst).Nodup
  deleted : ∀ p, (p, .deleted) ∈ entries →
    repo.disk.lookup (ofPath p) = none ∨ repo.index.lookup (ofPath p) = none
  added : ∀ p, (p, .added) ∈ entries → repo.head.lookup (ofPath p) = none

/-- What differs is text; what git does not ignore shows; and what is as in the index was not copied
last. -/
structure SeesAll (repo : StatusRepo) (items : List Item) : Prop where
  text : ∀ b, repo.Differs b → ∃ p, b.toStr = some p
  shown : ∀ p, repo.head.lookup (ofPath p) = none → repo.Untracked (ofPath p) →
    repo.rules.gitIgnored (ofPath p) = false → hidden repo.rules (ofPath p) = false
  kept : ∀ p, repo.Unchanged (ofPath p) → ¬ CopiedLast items (ofPath p)

section Reported

variable {repo : StatusRepo} {items : List Item} {p : Path}

theorem mem_status (h : Emits repo items) {k : FileStatus} :
    (p, k) ∈ statusHeadToWorktree repo.rules.build items ↔
      netHeadToWorktree (lastWrite (stagedWrite p) none items)
        (repo.unstagedStatus (ofPath p)) = some k := by
  rw [mem_status_iff, lastWrite_unstaged h]

/-- Neither half shows anything of a path that is as in HEAD, or hidden. -/
theorem not_differs_of_none {b : RelaPath} (hstaged : repo.stagedStatus b = none)
    (hunstaged : repo.unstagedStatus b = none)
    (hshown : repo.head.lookup b = none → repo.Untracked b → repo.rules.gitIgnored b = false →
      hidden repo.rules b = false) : ¬ repo.Differs b := by
  cases hindex : repo.index.lookup b with
  | none =>
    have hhead : repo.head.lookup b = none := by
      cases hhead : repo.head.lookup b with
      | none => rfl
      | some e => simp [StatusRepo.stagedStatus, hhead, hindex] at hstaged
    rintro (⟨hor, -⟩ | ⟨huntracked, hignored⟩)
    · rcases hor with hne | hne
      · exact hne hhead
      · exact hne hindex
    · rw [unstagedStatus_of_untracked huntracked, hshown hhead huntracked hignored] at hunstaged
      cases hunstaged
  | some entry =>
    have htracked : ¬ repo.Untracked b := fun h => by simp [h.1] at hindex
    cases entry with
    | staged e =>
      cases hdisk : repo.disk.lookup b with
      | none => simp [StatusRepo.unstagedStatus, hindex, hdisk] at hunstaged
      | some occupant =>
        have hentry : occupant.entry = some e := by
          simpa [StatusRepo.unstagedStatus, hindex, hdisk] using hunstaged
        have hhead : repo.head.lookup b = some e := by
          cases hhead : repo.head.lookup b with
          | none => simp [StatusRepo.stagedStatus, hhead, hindex] at hstaged
          | some e' => simpa [StatusRepo.stagedStatus, hhead, hindex] using hstaged
        rintro (⟨-, hne⟩ | ⟨huntracked, -⟩)
        · rw [StatusRepo.worktreeEntry, hdisk, Option.bind_some, hentry, hhead] at hne
          exact hne rfl
        · exact htracked huntracked
    | intentToAdd =>
      cases hdisk : repo.disk.lookup b <;>
        simp [StatusRepo.unstagedStatus, hindex, hdisk] at hunstaged
    | unmerged => simp [StatusRepo.unstagedStatus, hindex] at hunstaged

theorem disk_of_unstaged_deleted {b : RelaPath} (h : repo.unstagedStatus b = some .deleted) :
    repo.disk.lookup b = none ∧ repo.index.lookup b ≠ none := by
  rw [StatusRepo.unstagedStatus] at h
  cases hindex : repo.index.lookup b with
  | none => cases hdisk : repo.disk.lookup b <;> simp [hindex, hdisk] at h
  | some entry =>
    cases hdisk : repo.disk.lookup b with
    | none => exact ⟨rfl, by simp⟩
    | some occupant => cases entry <;> simp [hindex, hdisk] at h

/-- What is in the index and does not differ from it is unchanged. -/
theorem unchanged_of_unstaged_none {b : RelaPath} (h : repo.unstagedStatus b = none)
    (hindex : repo.index.lookup b ≠ none) : repo.Unchanged b := by
  obtain ⟨entry, hentry⟩ := Option.ne_none_iff_exists'.mp hindex
  rw [StatusRepo.unstagedStatus, hentry] at h
  cases hdisk : repo.disk.lookup b with
  | none => cases entry <;> simp [hdisk] at h
  | some occupant =>
    cases entry with
    | staged e =>
      have heq : occupant.entry = some e := by simpa [hdisk] using h
      exact ⟨e, hentry, by rw [StatusRepo.worktreeEntry, hdisk, Option.bind_some, heq]⟩
    | intentToAdd => simp [hdisk] at h
    | unmerged => simp at h

theorem Unchanged.unstagedStatus {b : RelaPath} (h : repo.Unchanged b) :
    repo.unstagedStatus b = none ∧ repo.disk.lookup b ≠ none ∧ repo.index.lookup b ≠ none := by
  obtain ⟨e, hindex, hentry⟩ := h
  rw [StatusRepo.worktreeEntry] at hentry
  obtain ⟨occupant, hdisk, heq⟩ := Option.bind_eq_some_iff.mp hentry
  simp [StatusRepo.unstagedStatus, hindex, hdisk, heq]

/-- A path of the index is deleted in HEAD and the index only if it is unmerged or to be added. -/
theorem index_of_justified_deleted {b : RelaPath} (h : Justified repo b .deleted)
    (hunstaged : repo.unstagedStatus b = none) : repo.index.lookup b = none := by
  by_contra hindex
  obtain ⟨e, he, -⟩ := unchanged_of_unstaged_none hunstaged hindex
  rcases h with hstaged | ⟨hunmerged, -⟩
  · rw [StatusRepo.stagedStatus, he] at hstaged
    cases hhead : repo.head.lookup b with
    | none => simp [hhead] at hstaged
    | some e' => by_cases heq : e' = e <;> simp [hhead, heq] at hstaged
  · rw [he] at hunmerged
    cases hunmerged

/-- A change at a path that is text is reported, if it does not count as hidden. -/
theorem reported_of_shown (h : Emits repo items)
    (hshown : repo.head.lookup (ofPath p) = none → repo.Untracked (ofPath p) →
      repo.rules.gitIgnored (ofPath p) = false → hidden repo.rules (ofPath p) = false)
    (hb : repo.Differs (ofPath p)) :
    ∃ k, (p, k) ∈ statusHeadToWorktree repo.rules.build items := by
  by_contra hnone
  have hnet : netHeadToWorktree (lastWrite (stagedWrite p) none items)
      (repo.unstagedStatus (ofPath p)) = none := by
    by_contra hne
    obtain ⟨k, hk⟩ := Option.ne_none_iff_exists'.mp hne
    exact hnone ⟨k, (mem_status h).mpr hk⟩
  rcases netHeadToWorktree_eq_none.mp hnet with ⟨hstaged, hunstaged⟩ | ⟨hstaged, hunstaged⟩
  · rcases @staged_cases repo items p h with ⟨-, hnothing⟩ | ⟨k, hk, -⟩ | ⟨hk, -⟩
    · exact not_differs_of_none hnothing hunstaged hshown hb
    · rw [hstaged] at hk
      cases hk
    · rw [hstaged] at hk
      cases hk
  · -- added to the index and gone from the worktree
    obtain ⟨hdisk, hindex⟩ := disk_of_unstaged_deleted hunstaged
    have hhead : repo.head.lookup (ofPath p) = none := by
      rcases @staged_cases repo items p h with ⟨hk, -⟩ | ⟨k, hk, hjustified⟩ | ⟨hk, -⟩
      · rw [hstaged] at hk
        cases hk
      · rw [hstaged] at hk
        obtain rfl := Option.some.inj hk
        exact hjustified.head_eq_none
      · rw [hstaged] at hk
        cases hk
    rcases hb with ⟨-, hne⟩ | ⟨huntracked, -⟩
    · rw [StatusRepo.worktreeEntry, hdisk, hhead] at hne
      exact hne rfl
    · exact hindex huntracked.1

theorem SeesAll.reported (h : Emits repo items) (hsees : SeesAll repo items) {b : RelaPath}
    (hb : repo.Differs b) :
    ∃ p k, b.toStr = some p ∧ (p, k) ∈ statusHeadToWorktree repo.rules.build items := by
  obtain ⟨p, hp⟩ := hsees.text b hb
  obtain rfl := toStr_eq_some.mp hp
  obtain ⟨k, hk⟩ := reported_of_shown h (hsees.shown p) hb
  exact ⟨p, k, hp, hk⟩

theorem SeesAll.deleted (h : Emits repo items) (hsees : SeesAll repo items)
    (hp : (p, .deleted) ∈ statusHeadToWorktree repo.rules.build items) :
    repo.disk.lookup (ofPath p) = none ∨ repo.index.lookup (ofPath p) = none := by
  rcases netHeadToWorktree_eq_deleted ((mem_status h).mp hp) with hgone | ⟨hstaged, hunstaged⟩
  · exact .inl (disk_of_unstaged_deleted hgone).1
  · right
    rcases @staged_cases repo items p h with ⟨hk, -⟩ | ⟨k, hk, hjustified⟩ | ⟨-, hcopied, -⟩
    · rw [hstaged] at hk
      cases hk
    · rw [hstaged] at hk
      obtain rfl := Option.some.inj hk
      exact index_of_justified_deleted hjustified hunstaged
    · by_contra hindex
      exact hsees.kept p (unchanged_of_unstaged_none hunstaged hindex) hcopied

/-- What counts as added is not in HEAD. -/
theorem head_of_added (h : Emits repo items)
    (hp : (p, .added) ∈ statusHeadToWorktree repo.rules.build items) :
    repo.head.lookup (ofPath p) = none := by
  rcases netHeadToWorktree_eq_added ((mem_status h).mp hp) with hstaged | ⟨hstaged, hunstaged⟩
  · rcases @staged_cases repo items p h with ⟨hk, -⟩ | ⟨k, hk, hjustified⟩ | ⟨hk, -⟩
    · rw [hstaged] at hk
      cases hk
    · rw [hstaged] at hk
      obtain rfl := Option.some.inj hk
      exact hjustified.head_eq_none
    · rw [hstaged] at hk
      cases hk
  · rcases @staged_cases repo items p h with ⟨-, hnothing⟩ | ⟨k, hk, -⟩ | ⟨hk, -⟩
    · -- an untracked path, or one that is to be added, would be deleted if HEAD had it
      rw [StatusRepo.stagedStatus] at hnothing
      rw [StatusRepo.unstagedStatus] at hunstaged
      cases hhead : repo.head.lookup (ofPath p) with
      | none => rfl
      | some e =>
        cases hindex : repo.index.lookup (ofPath p) with
        | none => simp [hhead, hindex] at hnothing
        | some entry =>
          cases entry with
          | staged e' =>
            cases hdisk : repo.disk.lookup (ofPath p) <;> simp [hindex, hdisk] at hunstaged
          | intentToAdd => simp [hhead, hindex] at hnothing
          | unmerged => simp [hindex] at hunstaged
    · rw [hstaged] at hk
      cases hk
    · rw [hstaged] at hk
      cases hk

/-- A hidden path that HEAD does not have is not reported. -/
theorem MissesNothing.shown (h : Emits repo items)
    (hmisses : MissesNothing repo (statusHeadToWorktree repo.rules.build items))
    (hhead : repo.head.lookup (ofPath p) = none) (huntracked : repo.Untracked (ofPath p))
    (hignored : repo.rules.gitIgnored (ofPath p) = false) : hidden repo.rules (ofPath p) = false := by
  by_contra hhidden
  obtain ⟨p', k, hp', hk⟩ := hmisses.reported _ (.inr ⟨huntracked, hignored⟩)
  obtain rfl : p = p' := by simpa using hp'
  have hunstaged : repo.unstagedStatus (ofPath p) = none := by
    rw [unstagedStatus_of_untracked huntracked]
    exact if_pos (by simpa using hhidden)
  have hnothing : repo.stagedStatus (ofPath p) = none := by
    rw [StatusRepo.stagedStatus, hhead, huntracked.1]
  have hstaged : lastWrite (stagedWrite p) none items = none := by
    rcases @staged_cases repo items p h with ⟨hk, -⟩ | ⟨k, -, hjustified⟩ | ⟨-, -, hne⟩
    · exact hk
    · rcases hjustified with hk | ⟨hunmerged, -⟩
      · rw [hnothing] at hk
        cases hk
      · rw [huntracked.1] at hunmerged
        cases hunmerged
    · exact absurd hhead hne
  have hnet := (mem_status h).mp hk
  rw [hstaged, hunstaged] at hnet
  cases hnet

/-- Nothing is missed if and only if what differs is text, what git does not ignore shows, and what is
as in the index was not copied last. -/
theorem missesNothing_iff (h : Emits repo items) :
    MissesNothing repo (statusHeadToWorktree repo.rules.build items) ↔ SeesAll repo items := by
  constructor
  · intro hmisses
    refine ⟨fun b hb => ?_, fun p => MissesNothing.shown h hmisses, fun p hunchanged hcopied => ?_⟩
    · obtain ⟨p, -, hp, -⟩ := hmisses.reported b hb
      exact ⟨p, hp⟩
    · obtain ⟨hunstaged, hdisk, hindex⟩ := Unchanged.unstagedStatus hunchanged
      have hmem : (p, .deleted) ∈ statusHeadToWorktree repo.rules.build items := by
        rw [mem_status h, lastWrite_of_copiedLast h hcopied, hunstaged]
        rfl
      rcases hmisses.deleted p hmem with hgone | hgone
      · exact hdisk hgone
      · exact hindex hgone
  · intro hsees
    exact ⟨fun b hb => hsees.reported h hb, nodup_status items, fun p hp => hsees.deleted h hp,
      fun p hp => head_of_added h hp⟩

end Reported

/-! ### A file that is included again -/

/-- Everything is excluded, and every `.gitignore` includes it again. -/
def againRules : IgnoreRules where
  gitignore _ _ := some .negative
  commonExclude _ _ _ := some .positive
  worktreeExclude _ _ := none
  globalExcludes _ _ := none
  case := .sensitive
  linked := true

/-- An untracked file. -/
def againRepo : StatusRepo where
  head := ∅
  index := ∅
  disk := Finmap.singleton (ofPath samplePath) (.regular (sampleBlob 1))
  rules := againRules

def againItems : List Item := [.indexWorktree (.directoryContents (ofPath samplePath) true)]

theorem againRules_included (exclude : Search) (p : RelaPath) :
    isIgnored (againRules.ranked exclude) p = false := by
  simp [isIgnored, IgnoreRules.ranked, againRules]

theorem emits_again : Emits againRepo againItems where
  change_justified := by simp [againItems]
  change_of_staged := by simp [StatusRepo.stagedStatus, againRepo]
  summarized := by simp [againItems]
  exists_summary := by simp [Summarized, againRepo]
  untracked_iff := by
    intro p
    have hshown : againRepo.rules.itemsIgnored p = false := againRules_included _ p
    rw [and_iff_left hshown]
    constructor
    · intro hitem
      obtain rfl : p = ofPath samplePath := by simpa [againItems] using hitem
      exact ⟨Finmap.lookup_empty _, .regular (sampleBlob 1), Finmap.lookup_singleton_eq, by simp⟩
    · rintro ⟨-, occupant, hdisk, -⟩
      obtain rfl := (Finmap.mem_singleton _ _ _).mp (FiniteMap.mem_of_lookup hdisk)
      exact List.mem_singleton.mpr rfl

theorem missesNothing_iff_again : Emits againRepo againItems ∧
    (MissesNothing againRepo (statusHeadToWorktree againRepo.rules.build againItems) ↔
      SeesAll againRepo againItems) :=
  ⟨emits_again, missesNothing_iff emits_again⟩

/-- The file is not reported, although git does not ignore it. -/
theorem not_missesNothing :
    ¬ ∀ (repo : StatusRepo) (items : List Item), Emits repo items →
      MissesNothing repo (statusHeadToWorktree repo.rules.build items) := by
  intro h
  have hdisk : againRepo.disk.lookup (ofPath samplePath) = some (.regular (sampleBlob 1)) :=
    Finmap.lookup_singleton_eq
  have hdiffers : againRepo.Differs (ofPath samplePath) :=
    .inr ⟨⟨Finmap.lookup_empty _, _, hdisk, by simp⟩, againRules_included _ _⟩
  obtain ⟨p, k, -, hk⟩ := (h againRepo againItems emits_again).reported _ hdiffers
  have hempty : statusHeadToWorktree againRepo.rules.build againItems = [] := by
    have hacc : againItems.foldl (collect againRepo.rules.build) ∅ = ∅ := rfl
    rw [statusHeadToWorktree, hacc]
    rfl
  rw [hempty] at hk
  cases hk

end Maw.StatusItems
