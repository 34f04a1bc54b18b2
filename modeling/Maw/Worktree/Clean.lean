import Mathlib.Data.List.DropRight
import Maw.Worktree.StatusItems

/-!
# Removing untracked files

A clean lists the untracked files of a workspace, and the ignored ones if it is told to, pins a
snapshot of them and removes them. The list is handed to git as pathspecs, and the files are removed
by their literal paths.

## Main definitions

* `collectCandidates`, `captureBeforeClean`, `removeCandidates` — the three steps.
* `clean` — all of them.
* `CleansSafely` — what is removed is in the snapshot, was not tracked and matches a filter.

## Main results

* `clean_safe_iff` — when a clean is safe.
* `cleansSafely_of_plain` — it is when no name begins with a colon and all names are text.
* `not_cleansSafely` — a file whose name begins with a colon is lost.
-/

open KeyedSort PrefixOrder

namespace Maw.Clean

open StatusItems RelaPath

/-- HEAD, the index and what stands on disk. -/
structure CleanRepo where
  head : FiniteMap RelaPath MaterializedEntry
  index : FiniteMap RelaPath MaterializedEntry
  disk : FiniteMap RelaPath Occupant

/-- What git answers: the untracked and the ignored paths, the files that pathspecs select, and
whether the commands of a capture succeed. -/
structure Tools where
  untracked : List RelaPath
  ignored : List RelaPath
  lossy : Name → Component
  lossy_text : ∀ c, lossy (.text c) = c
  selects : List Path → RelaPath → Bool
  readTree : Bool
  add : Bool
  stashCreate : Bool
  writeRef : Bool

/-- What a clean is asked for. -/
structure Request where
  isDefault : Bool
  force : Bool
  dryRun : Bool
  includeIgnored : Bool
  filters : List (List Char)

/-! ### The candidates -/

section Candidates

variable (tools : Tools) (request : Request)

/-- A path as text, with replacements for what is no text. -/
def toStringLossy (p : RelaPath) : Path :=
  ⟨p.names.map tools.lossy, by simpa using p.nonempty⟩

def pathMatchesFilter (path filter : List Char) : Bool :=
  let filter := filter.rdropWhile fun c => c = '/'
  path = filter || (filter ++ ['/']).isPrefixOf path

/-- The untracked paths that are text, and the ignored ones as text. -/
def collectSet : Finset Path :=
  (tools.untracked.filterMap toStr).toFinset ∪
    if request.includeIgnored then (tools.ignored.map (toStringLossy tools)).toFinset else ∅

def collectCandidates : List Path :=
  inOrderOf Path.slashed Path.slashed_injective ((collectSet tools request).filter fun p =>
    request.filters = [] ∨ ∃ f ∈ request.filters, pathMatchesFilter p.slashed f = true)

end Candidates

/-! ### The snapshot and the removal -/

abbrev Snapshot := FiniteMap RelaPath MaterializedEntry

/-- The tree of the stash: the files on disk that HEAD has or that the pathspecs select. -/
def stashTree (tools : Tools) (repo : CleanRepo) (paths : List Path) : Snapshot :=
  FiniteMap.ofFun repo.disk.keys fun p =>
    if (repo.head.lookup p).isSome || tools.selects paths p then
      (repo.disk.lookup p).bind Occupant.entry
    else none

def captureBeforeClean (tools : Tools) (repo : CleanRepo) (paths : List Path) : Option Snapshot :=
  if tools.readTree && tools.add && tools.stashCreate && tools.writeRef then
    some (stashTree tools repo paths)
  else none

/-- A directory or a repository; `remove_file` fails on it. -/
def isDir (disk : FiniteMap RelaPath Occupant) (p : Path) : Bool :=
  (disk.lookup (ofPath p)).any (fun | .repository _ => true | _ => false) ||
    decide (∃ q ∈ disk.keys, StrictPrefix (ofPath p).names q.names)

/-- Remove the candidates one by one, until one is a directory. -/
def removeCandidates (dir : Path → Bool) (disk : FiniteMap RelaPath Occupant) :
    List Path → FiniteMap RelaPath Occupant
  | [] => disk
  | c :: cs => if dir c then disk else removeCandidates dir (disk.erase (ofPath c)) cs

structure Outcome where
  repo : CleanRepo
  snapshot : Option Snapshot

def clean (tools : Tools) (request : Request) (repo : CleanRepo) : Outcome :=
  let candidates := collectCandidates tools request
  if (request.isDefault && !request.force) || candidates.isEmpty || request.dryRun then ⟨repo, none⟩
  else
    match captureBeforeClean tools repo candidates with
    | none => ⟨repo, none⟩
    | some snapshot =>
      ⟨{ repo with disk := removeCandidates (isDir repo.disk) repo.disk candidates }, some snapshot⟩

/-! ### What is removed -/

section Removal

variable {tools : Tools} {request : Request} {repo : CleanRepo}

/-- The candidates that are removed: those before the first directory. -/
def reached (tools : Tools) (request : Request) (repo : CleanRepo) : List Path :=
  (collectCandidates tools request).takeWhile fun c => !isDir repo.disk c

theorem lookup_removeCandidates (dir : Path → Bool) (disk : FiniteMap RelaPath Occupant)
    (cs : List Path) (p : RelaPath) : (removeCandidates dir disk cs).lookup p =
      if p ∈ (cs.takeWhile fun c => !dir c).map ofPath then none else disk.lookup p := by
  induction cs generalizing disk with
  | nil => rfl
  | cons c cs ih =>
    rw [removeCandidates]
    by_cases hdir : dir c = true
    · simp [hdir]
    · rw [if_neg hdir, ih, FiniteMap.lookup_erase, List.takeWhile_cons_of_pos (by simpa using hdir),
        List.map_cons]
      by_cases hp : p = ofPath c
      · simp [hp]
      · simp [hp]

/-- A path that is removed is reached, is a file and matches a filter. -/
theorem mem_reached {c : Path} (h : c ∈ reached tools request repo) :
    c ∈ collectSet tools request ∧ (request.filters = [] ∨
      ∃ f ∈ request.filters, pathMatchesFilter c.slashed f = true) ∧ isDir repo.disk c = false := by
  have hmem : c ∈ collectCandidates tools request := (List.takeWhile_subset _) h
  rw [collectCandidates, mem_inOrderOf, Finset.mem_filter] at hmem
  exact ⟨hmem.1, hmem.2, by simpa using List.mem_takeWhile_imp h⟩

/-- Whether files are removed at all. -/
def Removes (tools : Tools) (request : Request) : Prop :=
  ¬ (request.isDefault = true ∧ request.force = false) ∧ request.dryRun = false ∧
    tools.readTree = true ∧ tools.add = true ∧ tools.stashCreate = true ∧ tools.writeRef = true

theorem clean_of_removes (h : Removes tools request) (hne : collectCandidates tools request ≠ []) :
    let candidates := collectCandidates tools request
    clean tools request repo =
      ⟨{ repo with disk := removeCandidates (isDir repo.disk) repo.disk candidates },
        some (stashTree tools repo candidates)⟩ := by
  obtain ⟨hdefault, hdry, htree, hadd, hstash, hwrite⟩ := h
  rw [clean, if_neg]
  · simp [captureBeforeClean, htree, hadd, hstash, hwrite]
  · simpa [hdry, hne] using hdefault

theorem clean_of_not_removes (h : ¬ Removes tools request ∨ collectCandidates tools request = []) :
    clean tools request repo = ⟨repo, none⟩ := by
  rw [clean]
  split_ifs with hstop
  · rfl
  · simp only [Bool.or_eq_true, Bool.and_eq_true, Bool.not_eq_true', List.isEmpty_iff, not_or,
      Bool.not_eq_true] at hstop
    have hremoves : ¬ Removes tools request := h.resolve_right hstop.1.2
    have hcapture : captureBeforeClean tools repo (collectCandidates tools request) = none := by
      rw [captureBeforeClean, if_neg]
      simp only [Bool.and_eq_true]
      rintro ⟨⟨⟨htree, hadd⟩, hstash⟩, hwrite⟩
      exact hremoves ⟨hstop.1.1, hstop.2, htree, hadd, hstash, hwrite⟩
    rw [hcapture]

/-- A clean removes files that its snapshot has, that were not tracked and that match a filter; without
a snapshot it removes nothing, and it leaves the index alone. -/
structure CleansSafely (request : Request) (repo : CleanRepo) (outcome : Outcome) : Prop where
  kept : ∀ p, outcome.repo.disk.lookup p = repo.disk.lookup p ∨ outcome.repo.disk.lookup p = none
  captured : ∀ p occupant, repo.disk.lookup p = some occupant →
    outcome.repo.disk.lookup p = none → ∃ snapshot e, outcome.snapshot = some snapshot ∧
      occupant.entry = some e ∧ snapshot.lookup p = some e
  untracked : ∀ p, repo.disk.lookup p ≠ none → outcome.repo.disk.lookup p = none →
    repo.index.lookup p = none
  filtered : ∀ p, repo.disk.lookup p ≠ none → outcome.repo.disk.lookup p = none →
    ∃ c, p = ofPath c ∧ (request.filters = [] ∨
      ∃ f ∈ request.filters, pathMatchesFilter c.slashed f = true)
  failed : outcome.snapshot = none → outcome.repo.disk = repo.disk
  index : outcome.repo.index = repo.index

/-- What is removed is selected by the pathspecs or in HEAD, and is not tracked. -/
def Selected (tools : Tools) (request : Request) (repo : CleanRepo) : Prop :=
  ∀ c ∈ reached tools request repo, ∀ occupant, repo.disk.lookup (ofPath c) = some occupant →
    occupant.entry ≠ none ∧ (repo.head.lookup (ofPath c) ≠ none ∨
      tools.selects (collectCandidates tools request) (ofPath c) = true) ∧
        repo.index.lookup (ofPath c) = none

theorem lookup_stashTree {cs : List Path} {p : RelaPath} :
    (stashTree tools repo cs).lookup p =
      if (repo.head.lookup p).isSome || tools.selects cs p then
        (repo.disk.lookup p).bind Occupant.entry
      else none := by
  rw [stashTree, FiniteMap.lookup_ofFun]
  by_cases hp : p ∈ repo.disk.keys
  · rw [if_pos hp]
  · rw [if_neg hp, Finmap.lookup_eq_none.mpr fun h => hp (Finmap.mem_keys.mpr h)]
    split_ifs <;> rfl

theorem lookup_cleaned (p : RelaPath) : (removeCandidates (isDir repo.disk) repo.disk
    (collectCandidates tools request)).lookup p =
      if p ∈ (reached tools request repo).map ofPath then none else repo.disk.lookup p :=
  lookup_removeCandidates _ _ _ p

/-- What is gone was reached. -/
theorem exists_reached {p : RelaPath} (hthere : repo.disk.lookup p ≠ none)
    (hgone : (removeCandidates (isDir repo.disk) repo.disk
      (collectCandidates tools request)).lookup p = none) :
    ∃ c ∈ reached tools request repo, p = ofPath c := by
  rw [lookup_cleaned] at hgone
  split_ifs at hgone with hmem
  · obtain ⟨c, hc, rfl⟩ := List.mem_map.mp hmem
    exact ⟨c, hc, rfl⟩
  · exact absurd hgone hthere

theorem removes_or (tools : Tools) (request : Request) :
    (Removes tools request ∧ collectCandidates tools request ≠ []) ∨
      (¬ Removes tools request ∨ collectCandidates tools request = []) := by
  tauto

/-- A clean that removes nothing is safe. -/
theorem cleansSafely_self (request : Request) (repo : CleanRepo) :
    CleansSafely request repo ⟨repo, none⟩ := by
  refine ⟨fun p => .inl rfl, ?_, ?_, ?_, fun _ => rfl, rfl⟩
  · intro p occupant hdisk hgone
    exact absurd (hdisk.symm.trans hgone) (by simp)
  · exact fun p hthere hgone => absurd hgone hthere
  · exact fun p hthere hgone => absurd hgone hthere

theorem cleansSafely_of_selected (h : Removes tools request → Selected tools request repo) :
    CleansSafely request repo (clean tools request repo) := by
  rcases removes_or tools request with ⟨hremoves, hne⟩ | hstays
  · have hselected := h hremoves
    rw [clean_of_removes hremoves hne]
    refine ⟨fun p => ?_, fun p occupant hdisk hgone => ?_, fun p hthere hgone => ?_,
      fun p hthere hgone => ?_, fun hnone => absurd hnone (by simp), rfl⟩
    · simp only [lookup_cleaned]
      split_ifs
      · exact .inr rfl
      · exact .inl rfl
    · obtain ⟨c, hc, rfl⟩ := exists_reached (by simp [hdisk]) hgone
      obtain ⟨hentry, hstored, -⟩ := hselected c hc occupant hdisk
      obtain ⟨e, he⟩ := Option.ne_none_iff_exists'.mp hentry
      refine ⟨_, e, rfl, he, ?_⟩
      rw [lookup_stashTree, if_pos (by simpa [Option.isSome_iff_ne_none] using hstored), hdisk]
      exact he
    · obtain ⟨c, hc, rfl⟩ := exists_reached hthere hgone
      obtain ⟨occupant, hdisk⟩ := Option.ne_none_iff_exists'.mp hthere
      exact (hselected c hc occupant hdisk).2.2
    · obtain ⟨c, hc, rfl⟩ := exists_reached hthere hgone
      exact ⟨c, rfl, (mem_reached hc).2.1⟩
  · rw [clean_of_not_removes hstays]
    exact cleansSafely_self request repo

theorem selected_of_cleansSafely (hsafe : CleansSafely request repo (clean tools request repo))
    (hremoves : Removes tools request) : Selected tools request repo := by
  intro c hc occupant hdisk
  have hne : collectCandidates tools request ≠ [] := by
    intro hempty
    rw [reached, hempty] at hc
    cases hc
  rw [clean_of_removes hremoves hne] at hsafe
  have hgone : (removeCandidates (isDir repo.disk) repo.disk
      (collectCandidates tools request)).lookup (ofPath c) = none := by
    rw [lookup_cleaned, if_pos (List.mem_map_of_mem hc)]
  obtain ⟨snapshot, e, hsnapshot, hentry, hstored⟩ := hsafe.captured _ occupant hdisk hgone
  obtain rfl := Option.some.inj hsnapshot
  refine ⟨by simp [hentry], ?_, hsafe.untracked _ (by simp [hdisk]) hgone⟩
  rw [lookup_stashTree] at hstored
  split_ifs at hstored with hselected
  simpa [Option.isSome_iff_ne_none] using hselected

/-- A clean is safe if and only if it removes nothing, or what it removes is selected by the pathspecs
or in HEAD and is not tracked. -/
theorem clean_safe_iff (tools : Tools) (request : Request) (repo : CleanRepo) :
    CleansSafely request repo (clean tools request repo) ↔
      (Removes tools request → Selected tools request repo) :=
  ⟨selected_of_cleansSafely, cleansSafely_of_selected⟩

/-! ### Plain names -/

/-- Git lists paths that are not in the index, and no special files. -/
def ListsUntracked (tools : Tools) (repo : CleanRepo) : Prop :=
  ∀ p ∈ tools.untracked ++ tools.ignored, repo.index.lookup p = none ∧
    repo.disk.lookup p ≠ some .special

/-- A pathspec that begins with no colon selects the file of its name, if none does. -/
def SelectsLiterally (tools : Tools) : Prop :=
  ∀ (specs : List Path) (p : Path), p ∈ specs → (∀ s ∈ specs, s.slashed.head? ≠ some ':') →
    tools.selects specs (ofPath p) = true

theorem toStringLossy_ofPath (p : Path) : toStringLossy tools (ofPath p) = p := by
  obtain ⟨components, hne⟩ := p
  simp [toStringLossy, ofPath, tools.lossy_text, Function.comp_def]

/-- A candidate is listed, if all ignored names are text. -/
theorem ofPath_mem_listed (hignored : ∀ p ∈ tools.ignored, p.toStr ≠ none) {c : Path}
    (h : c ∈ collectSet tools request) : ofPath c ∈ tools.untracked ++ tools.ignored := by
  rw [collectSet, Finset.mem_union, List.mem_toFinset, List.mem_filterMap] at h
  rcases h with ⟨p, hp, hc⟩ | h
  · exact List.mem_append_left _ (toStr_eq_some.mp hc ▸ hp)
  · split_ifs at h with hinclude
    · obtain ⟨p, hp, hc⟩ := List.mem_map.mp (List.mem_toFinset.mp h)
      obtain ⟨q, hq⟩ := Option.ne_none_iff_exists'.mp (hignored p hp)
      obtain rfl := toStr_eq_some.mp hq
      rw [toStringLossy_ofPath] at hc
      exact List.mem_append_right _ (hc ▸ hp)
    · simp at h

theorem entry_of_not_isDir {disk : FiniteMap RelaPath Occupant} {c : Path} {occupant : Occupant}
    (hdir : isDir disk c = false) (hdisk : disk.lookup (ofPath c) = some occupant)
    (hspecial : occupant ≠ .special) : occupant.entry ≠ none := by
  rw [isDir, Bool.or_eq_false_iff, hdisk] at hdir
  cases occupant with
  | repository head => simp at hdir
  | special => exact absurd rfl hspecial
  | _ => simp [Occupant.entry, Occupant.fileEntry]

/-- A clean is safe when no name begins with a colon and all ignored names are text. -/
theorem cleansSafely_of_plain (hlists : ListsUntracked tools repo) (hliteral : SelectsLiterally tools)
    (hignored : ∀ p ∈ tools.ignored, p.toStr ≠ none)
    (hcolon : ∀ c ∈ collectCandidates tools request, c.slashed.head? ≠ some ':') :
    CleansSafely request repo (clean tools request repo) := by
  refine cleansSafely_of_selected fun _ c hc occupant hdisk => ?_
  obtain ⟨hset, -, hdir⟩ := mem_reached hc
  obtain ⟨hindex, hspecial⟩ := hlists _ (ofPath_mem_listed hignored hset)
  have hcandidate : c ∈ collectCandidates tools request := List.takeWhile_subset _ hc
  refine ⟨entry_of_not_isDir hdir hdisk fun heq => hspecial (heq ▸ hdisk), .inr ?_, hindex⟩
  exact hliteral _ c hcandidate hcolon

end Removal

/-! ### A name that begins with a colon -/

def fooPath : Path := ⟨[Component.lit "foo"], by decide⟩

def colonPath : Path := ⟨[Component.lit ":foo"], by decide⟩

/-- Two untracked files; a colon before the name of a pathspec is left out. -/
def colonTools : Tools where
  untracked := [ofPath fooPath, ofPath colonPath]
  ignored := []
  lossy
    | .text c => c
    | .bytes _ => Component.lit "\uFFFD"
  lossy_text _ := rfl
  selects specs p := specs.any fun s =>
    p.toStr.any fun q => q.slashed = s.slashed.dropWhile fun c => c = ':'
  readTree := true
  add := true
  stashCreate := true
  writeRef := true

def colonRequest : Request := ⟨false, false, false, false, []⟩

def colonRepo : CleanRepo where
  head := ∅
  index := ∅
  disk := (Finmap.singleton (ofPath fooPath) (.regular (sampleBlob 1))).insert (ofPath colonPath)
    (.regular (sampleBlob 2))

theorem mem_colonCandidates {c : Path} :
    c ∈ collectCandidates colonTools colonRequest ↔ c = fooPath ∨ c = colonPath := by
  have hlist : colonTools.untracked.filterMap toStr = [fooPath, colonPath] := by
    simp [colonTools]
  have hignored : colonRequest.includeIgnored = false := rfl
  have hfilters : colonRequest.filters = [] := rfl
  rw [collectCandidates, mem_inOrderOf, Finset.mem_filter, collectSet, hlist, hignored, hfilters]
  simp

/-- The pathspecs select the other file twice. -/
theorem colon_not_selected :
    colonTools.selects (collectCandidates colonTools colonRequest) (ofPath colonPath) = false := by
  have hfoo : (fooPath.slashed.dropWhile fun c => c = ':') ≠ colonPath.slashed := by decide +kernel
  have hcolon : (colonPath.slashed.dropWhile fun c => c = ':') ≠ colonPath.slashed := by
    decide +kernel
  refine List.any_eq_false.mpr fun s hs => ?_
  rw [toStr_ofPath]
  rcases mem_colonCandidates.mp hs with rfl | rfl
  · simpa using hfoo.symm
  · simpa using hcolon.symm

/-- The file whose name begins with a colon is removed without a copy. -/
theorem not_cleansSafely :
    ¬ CleansSafely colonRequest colonRepo (clean colonTools colonRequest colonRepo) := by
  intro hsafe
  have hdisk : colonRepo.disk.lookup (ofPath colonPath) = some (.regular (sampleBlob 2)) :=
    Finmap.lookup_insert _
  have hremoves : Removes colonTools colonRequest := ⟨by decide, rfl, rfl, rfl, rfl, rfl⟩
  have hfiles : ∀ c ∈ collectCandidates colonTools colonRequest, isDir colonRepo.disk c = false := by
    intro c hc
    rcases mem_colonCandidates.mp hc with rfl | rfl
    · decide +kernel
    · decide +kernel
  have hreached : colonPath ∈ reached colonTools colonRequest colonRepo := by
    rw [reached, List.takeWhile_eq_self_iff.mpr fun c hc => by simp [hfiles c hc]]
    exact mem_colonCandidates.mpr (.inr rfl)
  obtain ⟨-, hstored, -⟩ := selected_of_cleansSafely hsafe hremoves _ hreached _ hdisk
  rcases hstored with hhead | hselected
  · exact hhead (Finmap.lookup_empty _)
  · rw [colon_not_selected] at hselected
    cases hselected

end Maw.Clean
