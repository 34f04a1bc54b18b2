import Maw.Backend.Differences

/-!
# When the backends report the exact difference

Each list is read off what the walks find, path by path. The overlay backend has no list for what a
whiteout of a directory hides and no dirty file for any whiteout, the reflink backend does not see links
that lead nowhere and sees what stands behind links to directories, and the copy backend compares with
files of another directory and asks git about a directory that git does not track.

## Main definitions

* `OverlayWorkspace.Agrees`, `ReflinkWorkspace.Agrees`, `CopyWorkspace.Agrees` — what a workspace has to
  be for its backend to be exact.
* `Workspaces` — workspaces of the three backends from one tree with the same files.

## Main results

* `OverlayWorkspace.reports_iff`, `ReflinkWorkspace.reports_iff`, `CopyWorkspace.reports_iff` — when a
  backend is exact.
* `same_snapshot_iff` — when all of them are.
* `not_same_snapshot` — a directory is deleted.
-/

open LinkTree DirWalk

namespace Maw.BackendDiff

/-! ### Exact lists -/

/-- What the lists say about a path is exact. -/
def ExactAt (old new : Option Leaf) (added modified deleted : Prop) : Prop :=
  (added ↔ old = none ∧ new ≠ none) ∧ (modified ↔ old ≠ none ∧ new ≠ none ∧ old ≠ new) ∧
    (deleted ↔ old ≠ none ∧ new = none)

theorem ExactAt.any {old new : Option Leaf} {added modified deleted : Prop}
    (h : ExactAt old new added modified deleted) : added ∨ modified ∨ deleted ↔ old ≠ new := by
  obtain ⟨hadded, hmodified, hdeleted⟩ := h
  rw [hadded, hmodified, hdeleted]
  cases old <;> cases new <;> simp

section Reports

variable {metadata : Names} {present : Prop} {T W T' W' : Names → Option Leaf}
  {r : SnapshotResult} {d : Finset Names}

theorem isExactDiff_iff : IsExactDiff metadata T W r ↔
    ∀ p ≠ metadata, ExactAt (T p) (W p) (p ∈ r.added) (p ∈ r.modified) (p ∈ r.deleted) :=
  ⟨fun h p hp => ⟨h.added p hp, h.modified p hp, h.deleted p hp⟩,
    fun h => ⟨fun p hp => (h p hp).1, fun p hp => (h p hp).2.1, fun p hp => (h p hp).2.2⟩⟩

theorem SnapshotResult.mem_all {p : Names} :
    p ∈ r.all ↔ p ∈ r.added ∨ p ∈ r.modified ∨ p ∈ r.deleted := by
  rw [all, Finset.mem_union, Finset.mem_union, or_assoc]

/-- Exact lists and dirty files, path by path. -/
theorem reports_ok_iff : Reports metadata present T W (.ok r) (.ok d) ↔ present ∧
    ∀ p ≠ metadata, ExactAt (T p) (W p) (p ∈ r.added) (p ∈ r.modified) (p ∈ r.deleted) ∧
      (p ∈ d ↔ T p ≠ W p) := by
  constructor
  · rintro ⟨hexact, hunion, hmissing⟩
    have hpresent : present := by
      by_contra habsent
      obtain ⟨e, he⟩ := hmissing habsent
      cases he
    obtain ⟨r', hr', hr⟩ := hexact hpresent
    obtain rfl : r = r' := Except.ok.inj hr'
    obtain ⟨r', d', hr', hd', hd⟩ := hunion hpresent
    obtain rfl : r = r' := Except.ok.inj hr'
    obtain rfl : d = d' := Except.ok.inj hd'
    refine ⟨hpresent, fun p hp => ⟨isExactDiff_iff.mp hr p hp, ?_⟩⟩
    rw [hd p hp, SnapshotResult.mem_all]
    exact (isExactDiff_iff.mp hr p hp).any
  · rintro ⟨hpresent, hpaths⟩
    refine ⟨fun _ => ⟨r, rfl, isExactDiff_iff.mpr fun p hp => (hpaths p hp).1⟩,
      fun _ => ⟨r, d, rfl, rfl, fun p hp => ?_⟩, fun habsent => absurd hpresent habsent⟩
    rw [(hpaths p hp).2, SnapshotResult.mem_all]
    exact (hpaths p hp).1.any.symm

/-- Only the trees and the files count, and these only if the snapshot of the epoch is there. -/
theorem Reports.congr {snapshot : Except BackendError SnapshotResult}
    {dirty : Except BackendError (Finset Names)} (h : Reports metadata present T W snapshot dirty)
    (hT : present → ∀ p ≠ metadata, T p = T' p) (hW : present → ∀ p ≠ metadata, W p = W' p) :
    Reports metadata present T' W' snapshot dirty := by
  refine ⟨fun hpresent => ?_, h.union, h.missing⟩
  obtain ⟨r, hr, hexact⟩ := h.exact hpresent
  refine ⟨r, hr, isExactDiff_iff.mpr fun p hp => ?_⟩
  rw [← hT hpresent p hp, ← hW hpresent p hp]
  exact isExactDiff_iff.mp hexact p hp

theorem reports_congr {snapshot : Except BackendError SnapshotResult}
    {dirty : Except BackendError (Finset Names)} (hT : present → ∀ p ≠ metadata, T p = T' p)
    (hW : present → ∀ p ≠ metadata, W p = W' p) :
    Reports metadata present T W snapshot dirty ↔ Reports metadata present T' W' snapshot dirty :=
  ⟨fun h => h.congr hT hW, fun h =>
    h.congr (fun hpresent p hp => (hT hpresent p hp).symm) fun hpresent p hp => (hW hpresent p hp).symm⟩

end Reports

/-! ### The disk -/

namespace Volume

variable {v : Volume} {root p : Names}

theorem mem_readDir {place : Names} {name : Component} :
    name ∈ v.readDir place ↔ (v.fs (place ++ [name])).isSome = true := by
  rw [readDir, Finset.mem_biUnion]
  constructor
  · rintro ⟨q, hq, hname⟩
    split_ifs at hname with hplace
    · rw [Option.mem_toFinset, Option.mem_def] at hname
      rw [← hplace, List.dropLast_append_getLast? _ hname]
      exact Finmap.lookup_isSome.mpr (Finmap.mem_keys.mp hq)
    · exact absurd hname (Finset.notMem_empty _)
  · intro hsome
    refine ⟨place ++ [name], Finmap.mem_keys.mpr (Finmap.lookup_isSome.mp hsome), ?_⟩
    rw [if_pos List.dropLast_concat, List.getLast?_concat]
    exact Option.mem_toFinset.mpr rfl

theorem length_le_depth {place : Names} (hsome : (v.fs place).isSome = true) :
    place.length ≤ v.depth :=
  Finset.le_sup (f := List.length) (Finmap.mem_keys.mpr (Finmap.lookup_isSome.mp hsome))

theorem length_le_reach (hsome : (v.fs (root ++ p)).isSome = true) : p.length ≤ v.reach := by
  have hlength := length_le_depth hsome
  rw [List.length_append] at hlength
  have hreach : 1 * v.depth ≤ v.reach := Nat.mul_le_mul_right _ (Nat.le_add_left 1 _)
  omega

theorem stat_nil : v.stat root [] = v.fs root := by
  cases hlinks : v.maxLinks <;> rw [stat, hlinks] <;> rfl

/-- What stands above a node is a directory that can be searched. -/
theorem searchable_above (hsome : (v.fs (root ++ p)).isSome = true) {above : Names}
    (hpre : above <+: p) (hne : above ≠ p) : v.fs (root ++ above) = some (.dir true true) := by
  obtain ⟨below, rfl⟩ := hpre
  rw [← List.append_assoc] at hsome
  have hbelow : below ≠ [] := by
    rintro rfl
    exact hne (List.append_nil _).symm
  obtain ⟨node, hnode, hdir⟩ := (Option.any_eq_true _ _).mp (v.wellFormed.isDir_above hbelow hsome)
  rw [← v.accessible _ node hnode hdir]
  exact hnode

/-- What is no link is what its path leads to. -/
theorem stat_of_fs {node : DiskNode} (hnode : v.fs (root ++ p) = some node)
    (hlink : node.isLink = false) : v.stat root p = some node := by
  have hsome : (v.fs (root ++ p)).isSome = true := by rw [hnode]; rfl
  rw [stat, resolve_names, Option.bind_some, hnode]
  · intro above hpre hne
    rw [searchable_above hsome hpre hne]
    rfl
  · intro above hpre _
    by_cases heq : above = p
    · rw [heq, hnode, Option.any_some, hlink]
      rfl
    · rw [searchable_above hsome hpre heq]
      rfl

/-- What a walk finds that takes links for files. -/
theorem mem_plainWalk (hroot : (v.fs root).any Node.isDir = true) {entersName : Component → Bool} :
    p ∈ walk (v.plainView root entersName) v.reach [] ↔
      (v.fs (root ++ p)).any (fun node => !node.isDir) = true ∧
        ∀ above name, above ++ [name] <+: p → above ++ [name] ≠ p → entersName name = true := by
  rw [mem_walk]
  simp only [List.nil_append, leads_iff, plainView]
  constructor
  · rintro ⟨below, rfl, -, -, -, habove, -, hlists⟩
    refine ⟨hlists, fun above name hpre hne => ?_⟩
    have henters := habove _ hpre (by simp) hne
    rw [Bool.and_eq_true, List.getLast?_concat] at henters
    exact henters.2
  · rintro ⟨hlists, hnames⟩
    obtain ⟨node, hnode, hdir⟩ := (Option.any_eq_true _ _).mp hlists
    have hsome : (v.fs (root ++ p)).isSome = true := by rw [hnode]; rfl
    refine ⟨p, rfl, length_le_reach hsome, ?_, fun above name hpre => ?_,
      fun above hpre hne hne' => ?_, ?_, hlists⟩
    · rintro rfl
      rw [List.append_nil] at hnode
      rw [hnode, Option.any_some] at hroot
      rw [hroot] at hdir
      cases hdir
    · rw [mem_readDir, List.append_assoc]
      by_cases heq : above ++ [name] = p
      · rwa [heq]
      · rw [searchable_above hsome hpre heq]
        rfl
    · rw [searchable_above hsome hpre hne']
      obtain ⟨front, name, rfl⟩ := List.eq_nil_or_concat above |>.resolve_left hne
      rw [List.concat_eq_append] at hpre hne' ⊢
      rw [List.getLast?_concat]
      exact hnames front name hpre hne'
    · rw [hnode, Option.any_some]
      rw [Bool.not_eq_true'] at hdir
      rw [hdir, Bool.false_and]

/-- What is above a path that leads somewhere is a directory. -/
theorem isDir_of_isFile {above below : Names} (hne : below ≠ [])
    (hstat : (v.stat root (above ++ below)).isSome = true) : v.isDir root above = true := by
  induction below using List.reverseRecOn generalizing above with
  | nil => exact absurd rfl hne
  | append_singleton below name ih =>
    obtain ⟨final, hfinal⟩ : ∃ final,
        resolve v.fs v.maxLinks root ((above ++ (below ++ [name])).map .down) = some final := by
      rw [stat] at hstat
      cases hresolve : resolve v.fs v.maxLinks root ((above ++ (below ++ [name])).map .down) with
      | none =>
        rw [hresolve] at hstat
        cases hstat
      | some final => exact ⟨final, rfl⟩
    rw [← List.append_assoc, List.map_append] at hfinal
    obtain ⟨place, hplace, hname⟩ := resolve_concat hfinal
    have hdir := v.wellFormed place name hname
    have hstat' : v.stat root (above ++ below) = v.fs place := by rw [stat, hplace, Option.bind_some]
    by_cases hbelow : below = []
    · rw [hbelow, List.append_nil] at hstat'
      rw [isDir, hstat']
      exact hdir
    · refine ih hbelow ?_
      rw [hstat']
      obtain ⟨node, hnode, -⟩ := (Option.any_eq_true _ _).mp hdir
      exact Option.isSome_iff_exists.mpr ⟨node, hnode⟩

/-- A path that leads somewhere has a name in a directory that the path above it leads to. -/
theorem mem_entries {above : Names} {name : Component}
    (hstat : (v.stat root (above ++ [name])).isSome = true) : name ∈ v.entries root above := by
  rw [stat, List.map_append] at hstat
  cases hresolve : resolve v.fs v.maxLinks root (above.map .down ++ [name].map .down) with
  | none =>
    rw [hresolve] at hstat
    cases hstat
  | some final =>
    obtain ⟨place, hplace, hname⟩ := resolve_concat hresolve
    rw [entries, hplace]
    exact mem_readDir.mpr hname

theorem length_le_of_stat (hstat : (v.stat root p).isSome = true) : p.length ≤ v.reach := by
  rw [stat] at hstat
  cases hresolve : resolve v.fs v.maxLinks root (p.map .down) with
  | none =>
    rw [hresolve] at hstat
    cases hstat
  | some final =>
    have hsteps : resolve v.fs v.maxLinks root ([] ++ p.map .down) = some final := hresolve
    exact length_le_of_resolve (fun _ => length_le_depth) hsteps

theorem isDir_eq_false_of_isFile (hfile : v.isFile root p = true) : v.isDir root p = false := by
  obtain ⟨node, hnode, hregular⟩ := (Option.any_eq_true _ _).mp hfile
  rw [isDir, hnode, Option.any_some]
  cases node with
  | file data => rfl
  | link text => rfl
  | dir readable searchable => cases hregular

end Volume

/-! ### The overlay backend -/

namespace OverlayWorkspace

variable {ws : OverlayWorkspace} {p : Names}

/-- What the upper layer has to be for the overlay backend: nothing of the epoch is gone, there is no
whiteout, and each file is really changed, tells by the lower directory whether it is new, and stands
below no directory that is named `work`. -/
structure Agrees (ws : OverlayWorkspace) : Prop where
  present : ws.Present
  kept : ∀ p ≠ refcountFile, ws.tree p ≠ none → ws.files p ≠ none
  unhidden : ∀ p ≠ refcountFile, (ws.v.fs (ws.upper ++ p)).any isWhiteout = false
  changed : ∀ p ≠ refcountFile, ∀ leaf, ws.v.leaf ws.upper p = some leaf →
    ws.tree p ≠ some leaf ∧ (ws.v.exists? ws.lower p = true ↔ ws.tree p ≠ none) ∧
      ws.v.isWhiteoutFile ws.upper p = false ∧
      ∀ above name, above ++ [name] <+: p → above ++ [name] ≠ p → name ≠ workName

/-- What the upper layer has at a path: a whiteout, a file, or nothing that is found. -/
theorem upper_cases (ws : OverlayWorkspace) (p : Names) :
    (ws.v.fs (ws.upper ++ p)).any isWhiteout = true ∨
    (∃ leaf, ws.v.leaf ws.upper p = some leaf ∧ ws.files p = some leaf ∧
      (ws.v.fs (ws.upper ++ p)).any (fun node => !node.isDir) = true) ∨
    ((ws.v.fs (ws.upper ++ p)).any (fun node => !node.isDir) = false ∧
      ws.v.leaf ws.upper p = none ∧ (ws.files p = none ∨ ws.files p = ws.tree p)) := by
  rw [Volume.leaf, files]
  cases hnode : ws.v.fs (ws.upper ++ p) with
  | none =>
    refine Or.inr (Or.inr ⟨rfl, rfl, ?_⟩)
    split_ifs
    · exact Or.inl rfl
    · exact Or.inr rfl
  | some node =>
    cases node with
    | file data =>
      cases data with
      | regular content executable => exact Or.inr (Or.inl ⟨_, rfl, rfl, rfl⟩)
      | whiteout => exact Or.inl rfl
    | link text => exact Or.inr (Or.inl ⟨_, rfl, rfl, rfl⟩)
    | dir readable searchable => exact Or.inr (Or.inr ⟨rfl, rfl, Or.inl rfl⟩)

theorem isWhiteoutFile_of_any (hwhiteout : (ws.v.fs (ws.upper ++ p)).any isWhiteout = true) :
    ws.v.isWhiteoutFile ws.upper p = true ∧
      (ws.v.fs (ws.upper ++ p)).any (fun node => !node.isDir) = true := by
  obtain ⟨node, hnode, hnode'⟩ := (Option.any_eq_true _ _).mp hwhiteout
  cases node with
  | file data =>
    rw [Volume.isWhiteoutFile, Volume.stat_of_fs hnode rfl, hnode]
    exact ⟨hnode', rfl⟩
  | link text => cases hnode'
  | dir readable searchable => cases hnode'

theorem mem_diffUpperVsLower (ws : OverlayWorkspace) (p : Names) :
    (p ∈ ws.diffUpperVsLower.added ↔
      ((ws.v.fs (ws.upper ++ p)).any (fun node => !node.isDir) = true ∧
        ws.v.isWhiteoutFile ws.upper p = false) ∧ ws.v.exists? ws.lower p = false) ∧
    (p ∈ ws.diffUpperVsLower.modified ↔
      ((ws.v.fs (ws.upper ++ p)).any (fun node => !node.isDir) = true ∧
        ws.v.isWhiteoutFile ws.upper p = false) ∧ ws.v.exists? ws.lower p = true) ∧
    (p ∈ ws.diffUpperVsLower.deleted ↔
      (ws.v.fs (ws.upper ++ p)).any (fun node => !node.isDir) = true ∧
        ws.v.isWhiteoutFile ws.upper p = true) := by
  simp [diffUpperVsLower, Volume.mem_plainWalk ws.upper_isDir]

theorem mem_scanUpperDirForDirty (ws : OverlayWorkspace) (p : Names) :
    p ∈ ws.scanUpperDirForDirty ↔
      ((ws.v.fs (ws.upper ++ p)).any (fun node => !node.isDir) = true ∧
        ∀ above name, above ++ [name] <+: p → above ++ [name] ≠ p → name ≠ workName) ∧
      ws.v.isWhiteoutFile ws.upper p = false := by
  rw [scanUpperDirForDirty, Finset.mem_filter, Volume.mem_plainWalk ws.upper_isDir]
  simp only [decide_eq_true_eq]

/-- When the overlay backend is exact. -/
theorem reports_iff :
    Reports refcountFile ws.Present ws.tree ws.files ws.snapshot ws.status ↔ ws.Agrees := by
  have hupper : ws.upperExists = true := by
    obtain ⟨node, hnode, hdir⟩ := (Option.any_eq_true _ _).mp ws.upper_isDir
    rw [upperExists, Volume.exists?, Volume.stat_nil, hnode]
    rfl
  rw [snapshot, status, if_pos hupper, if_pos hupper, reports_ok_iff]
  constructor
  · rintro ⟨hpresent, hpaths⟩
    have hunhidden (p : Names) (hp : p ≠ refcountFile) :
        (ws.v.fs (ws.upper ++ p)).any isWhiteout = false := by
      by_contra hwhiteout
      rw [Bool.not_eq_false] at hwhiteout
      obtain ⟨hseen, hnode⟩ := isWhiteoutFile_of_any hwhiteout
      obtain ⟨hexact, hdirty⟩ := hpaths p hp
      have hdeleted := (mem_diffUpperVsLower ws p).2.2.mpr ⟨hnode, hseen⟩
      have hmem := hdirty.mpr (hexact.any.mp (Or.inr (Or.inr hdeleted)))
      rw [mem_scanUpperDirForDirty, hseen] at hmem
      exact absurd hmem.2 Bool.noConfusion
    refine ⟨hpresent, fun p hp htree hfiles => ?_, hunhidden, fun p hp leaf hleaf => ?_⟩
    · obtain ⟨hexact, -⟩ := hpaths p hp
      have hdeleted := (mem_diffUpperVsLower ws p).2.2.mp (hexact.2.2.mpr ⟨htree, hfiles⟩)
      rcases upper_cases ws p with hwhiteout | ⟨leaf, -, hleaf, -⟩ | ⟨hnode, -⟩
      · rw [hunhidden p hp] at hwhiteout
        cases hwhiteout
      · rw [hfiles] at hleaf
        cases hleaf
      · rw [hnode] at hdeleted
        cases hdeleted.1
    · obtain ⟨⟨hadded, hmodified, hdeleted⟩, hdirty⟩ := hpaths p hp
      obtain ⟨hadded', hmodified', hdeleted'⟩ := mem_diffUpperVsLower ws p
      rcases upper_cases ws p with hwhiteout | ⟨leaf', hleaf', hfiles, hnode⟩ | ⟨-, hnone, -⟩
      · rw [hunhidden p hp] at hwhiteout
        cases hwhiteout
      · obtain rfl : leaf = leaf' := Option.some.inj (hleaf.symm.trans hleaf')
        have hseen : ws.v.isWhiteoutFile ws.upper p = false := by
          by_contra hseen
          rw [Bool.not_eq_false] at hseen
          have hgone := (hdeleted.mp (hdeleted'.mpr ⟨hnode, hseen⟩)).2
          rw [hfiles] at hgone
          cases hgone
        have hfound : ws.tree p ≠ ws.files p ∧
            (ws.v.exists? ws.lower p = true ↔ ws.tree p ≠ none) := by
          cases hlower : ws.v.exists? ws.lower p with
          | true =>
            have hboth := hmodified.mp (hmodified'.mpr ⟨⟨hnode, hseen⟩, hlower⟩)
            exact ⟨hboth.2.2, iff_of_true rfl hboth.1⟩
          | false =>
            have hnew := hadded.mp (hadded'.mpr ⟨⟨hnode, hseen⟩, hlower⟩)
            exact ⟨by rw [hnew.1]; exact hnew.2.symm, iff_of_false Bool.noConfusion (· hnew.1)⟩
        have hwork := (mem_scanUpperDirForDirty ws p).mp (hdirty.mpr hfound.1)
        rw [hfiles] at hfound
        exact ⟨hfound.1, hfound.2, hseen, hwork.1.2⟩
      · rw [hnone] at hleaf
        cases hleaf
  · rintro ⟨hpresent, hkept, hunhidden, hchanged⟩
    refine ⟨hpresent, fun p hp => ?_⟩
    obtain ⟨hadded, hmodified, hdeleted⟩ := mem_diffUpperVsLower ws p
    rw [ExactAt, hadded, hmodified, hdeleted, mem_scanUpperDirForDirty]
    rcases upper_cases ws p with hwhiteout | ⟨leaf, hleaf, hfiles, hnode⟩ | ⟨hnode, -, hfiles⟩
    · rw [hunhidden p hp] at hwhiteout
      cases hwhiteout
    · obtain ⟨hne, hlower, hseen, hwork⟩ := hchanged p hp leaf hleaf
      rw [hfiles]
      refine ⟨?_, iff_of_true ⟨⟨hnode, hwork⟩, hseen⟩ hne⟩
      rw [hnode, hseen]
      cases hlower' : ws.v.exists? ws.lower p with
      | true =>
        have htree := hlower.mp hlower'
        simp [htree, hne]
      | false =>
        have htree : ws.tree p = none := by
          by_contra htree
          rw [hlower.mpr htree] at hlower'
          cases hlower'
        simp [htree]
    · have hsame : ws.tree p = ws.files p := by
        rcases hfiles with hfiles | hfiles
        · rw [hfiles]
          by_contra htree
          exact hkept p hp htree hfiles
        · exact hfiles.symm
      rw [hnode, hsame]
      cases ws.files p <;> simp

end OverlayWorkspace

/-! ### The reflink backend -/

namespace ReflinkWorkspace

variable {ws : ReflinkWorkspace} {root p : Names} {exclude : Finset Component}

/-- The walk sees a path that leads to a regular file and has no excluded name. -/
def Sees (ws : ReflinkWorkspace) (root : Names) (exclude : Finset Component) (p : Names) : Prop :=
  (∀ name ∈ p, name ∉ exclude) ∧ ws.v.isFile root p = true

theorem mem_collectFiles (hroot : (ws.v.fs root).any isRegular = false) :
    p ∈ ws.collectFiles root exclude ↔ ws.Sees root exclude p := by
  rw [collectFiles, mem_walk]
  simp only [List.nil_append, leads_iff, view]
  constructor
  · rintro ⟨below, rfl, -, -, -, habove, -, hlists⟩
    rw [Bool.and_eq_true] at hlists
    refine ⟨fun name hname => ?_, hlists.2⟩
    obtain ⟨above, rest, rfl⟩ := List.append_of_mem hname
    by_cases hrest : rest = []
    · have hlast := hlists.1
      rw [hrest, List.getLast?_concat] at hlast
      exact of_decide_eq_true hlast
    · have henters := habove (above ++ [name]) ⟨rest, by simp⟩ (by simp) (by simpa using Ne.symm hrest)
      rw [Bool.and_eq_true, List.getLast?_concat] at henters
      exact of_decide_eq_true henters.1
  · rintro ⟨hnames, hfile⟩
    have hstat : (ws.v.stat root p).isSome = true := by
      obtain ⟨node, hnode, -⟩ := (Option.any_eq_true _ _).mp hfile
      exact Option.isSome_iff_exists.mpr ⟨node, hnode⟩
    have hlast (above : Names) (hpre : above <+: p) :
        above.getLast?.all (fun name => decide (name ∉ exclude)) = true := by
      cases hname : above.getLast? with
      | none => rfl
      | some name => exact decide_eq_true (hnames name (hpre.mem (List.mem_of_getLast? hname)))
    have hdir (above : Names) (hpre : above <+: p) (hne : above ≠ p) :
        ws.v.isDir root above = true := by
      obtain ⟨below, rfl⟩ := hpre
      refine Volume.isDir_of_isFile ?_ hstat
      rintro rfl
      exact hne (List.append_nil _).symm
    refine ⟨p, rfl, Volume.length_le_of_stat hstat, ?_, fun above name hpre => ?_,
      fun above hpre _ hne => ?_, ?_, ?_⟩
    · rintro rfl
      rw [Volume.isFile, Volume.stat_nil, hroot] at hfile
      cases hfile
    · refine Volume.mem_entries ?_
      by_cases heq : above ++ [name] = p
      · rwa [heq]
      · obtain ⟨node, hnode, -⟩ := (Option.any_eq_true _ _).mp (hdir _ hpre heq)
        exact Option.isSome_iff_exists.mpr ⟨node, hnode⟩
    · rw [hlast above hpre, hdir above hpre hne]
      rfl
    · rw [Volume.isDir_eq_false_of_isFile hfile, Bool.and_false]
    · rw [hlast p (List.prefix_refl p), hfile]
      rfl

/-- What the disk has to be for the reflink backend: what is as in the epoch is seen in both directories
or in none, and with the same bytes; what is not is seen wherever it is, with other bytes. -/
structure Agrees (ws : ReflinkWorkspace) : Prop where
  present : ws.Present
  same : ∀ p ≠ epochFile, ws.tree p = ws.files p →
    (ws.Sees ws.base ∅ p ↔ ws.Sees ws.ws excludedNames p) ∧
      (ws.Sees ws.base ∅ p → ws.filesEqual p = true)
  differ : ∀ p ≠ epochFile, ws.tree p ≠ ws.files p →
    (ws.Sees ws.base ∅ p ↔ ws.tree p ≠ none) ∧
      (ws.Sees ws.ws excludedNames p ↔ ws.files p ≠ none) ∧
        (ws.tree p ≠ none → ws.files p ≠ none → ¬ ws.filesEqual p = true)

theorem isRegular_of_isDir {place : Names} {v : Volume}
    (hdir : (v.fs place).any Node.isDir = true) : (v.fs place).any isRegular = false := by
  obtain ⟨node, hnode, hdir⟩ := (Option.any_eq_true _ _).mp hdir
  rw [hnode, Option.any_some]
  cases node with
  | dir readable searchable => rfl
  | file data => cases hdir
  | link text => cases hdir

/-- Exact lists from two sets of seen paths and a comparison. -/
theorem exactAt_seen {old new : Option Leaf} {inBase inWs equal : Prop} :
    ExactAt old new (inWs ∧ ¬ inBase) ((inWs ∧ inBase) ∧ ¬ equal) (inBase ∧ ¬ inWs) ↔
      (old = new → (inBase ↔ inWs) ∧ (inBase → equal)) ∧
        (old ≠ new → (inBase ↔ old ≠ none) ∧ (inWs ↔ new ≠ none) ∧
          (old ≠ none → new ≠ none → ¬ equal)) := by
  rw [ExactAt]
  by_cases heq : old = new
  · subst heq
    cases old <;> simp <;> tauto
  · cases old <;> cases new <;> simp_all <;> tauto

/-- When the reflink backend is exact. -/
theorem reports_iff :
    Reports epochFile ws.Present ws.tree ws.files ws.snapshot ws.status ↔ ws.Agrees := by
  have hws : ws.v.exists? ws.ws [] = true := by
    obtain ⟨node, hnode, -⟩ := (Option.any_eq_true _ _).mp ws.ws_isDir
    rw [Volume.exists?, Volume.stat_nil, hnode]
    rfl
  rw [snapshot, status, if_pos hws, if_pos hws, reports_ok_iff]
  have hpaths (hpresent : ws.Present) (p : Names) :
      (p ∈ ws.diffDirs.added ↔ ws.Sees ws.ws excludedNames p ∧ ¬ ws.Sees ws.base ∅ p) ∧
      (p ∈ ws.diffDirs.modified ↔ (ws.Sees ws.ws excludedNames p ∧ ws.Sees ws.base ∅ p) ∧
        ¬ ws.filesEqual p = true) ∧
      (p ∈ ws.diffDirs.deleted ↔ ws.Sees ws.base ∅ p ∧ ¬ ws.Sees ws.ws excludedNames p) := by
    have hbase : ws.v.exists? ws.base [] = true := by
      obtain ⟨node, hnode, -⟩ := (Option.any_eq_true _ _).mp hpresent
      rw [Volume.exists?, Volume.stat_nil, hnode]
      rfl
    have hseen : p ∈ ws.collectFiles ws.base ∅ ↔ ws.Sees ws.base ∅ p :=
      mem_collectFiles (isRegular_of_isDir hpresent)
    have hseen' : p ∈ ws.collectFiles ws.ws excludedNames ↔ ws.Sees ws.ws excludedNames p :=
      mem_collectFiles (isRegular_of_isDir ws.ws_isDir)
    simp only [diffDirs, if_pos hbase, Finset.mem_sdiff, Finset.mem_filter, Finset.mem_inter, hseen,
      hseen', Bool.not_eq_true, and_self]
  have hexact (hpresent : ws.Present) (p : Names) : ExactAt (ws.tree p) (ws.files p)
      (p ∈ ws.diffDirs.added) (p ∈ ws.diffDirs.modified) (p ∈ ws.diffDirs.deleted) ↔
      (ws.tree p = ws.files p → (ws.Sees ws.base ∅ p ↔ ws.Sees ws.ws excludedNames p) ∧
        (ws.Sees ws.base ∅ p → ws.filesEqual p = true)) ∧
      (ws.tree p ≠ ws.files p → (ws.Sees ws.base ∅ p ↔ ws.tree p ≠ none) ∧
        (ws.Sees ws.ws excludedNames p ↔ ws.files p ≠ none) ∧
          (ws.tree p ≠ none → ws.files p ≠ none → ¬ ws.filesEqual p = true)) := by
    obtain ⟨hadded, hmodified, hdeleted⟩ := hpaths hpresent p
    rw [hadded, hmodified, hdeleted, exactAt_seen]
  constructor
  · rintro ⟨hpresent, hpath⟩
    exact ⟨hpresent, fun p hp => ((hexact hpresent p).mp (hpath p hp).1).1,
      fun p hp => ((hexact hpresent p).mp (hpath p hp).1).2⟩
  · rintro ⟨hpresent, hsame, hdiffer⟩
    refine ⟨hpresent, fun p hp => ?_⟩
    have hp' := (hexact hpresent p).mpr ⟨hsame p hp, hdiffer p hp⟩
    exact ⟨hp', SnapshotResult.mem_all.trans hp'.any⟩

end ReflinkWorkspace

/-! ### The copy backend -/

namespace CopyWorkspace

variable {ws : CopyWorkspace} {p : Names}

/-- Git prints a path of the epoch like this one. -/
def Tracked (ws : CopyWorkspace) (p : Names) : Prop := ∃ q, ws.tree q ≠ none ∧ ws.printed q = p

/-- What the copy backend needs: git prints the paths of the epoch as they are and no others that look
like a path of the workspace, no link of the workspace leads nowhere, the comparison with the files below
the directory of the process comes out as with those of the workspace, and git reports in the root what
is changed in the workspace. -/
structure Agrees (ws : CopyWorkspace) : Prop where
  present : ws.Present
  printed : ∀ p ≠ epochFile, ws.tree p ≠ none → ws.Tracked p
  found : ∀ p ≠ epochFile, ws.tree p ≠ none → (ws.v.exists? ws.dir p = true ↔ ws.files p ≠ none)
  compared : ∀ p ≠ epochFile, ws.files p ≠ none → ∀ leaf, ws.tree p = some leaf →
    (ws.bytes leaf ≠ (ws.v.read ws.cwd p).getD [] ↔ ws.files p ≠ some leaf)
  other : ∀ p ≠ epochFile, ws.Tracked p → ws.tree p = none →
    ws.v.exists? ws.dir p = true ∧ ws.files p = none
  rootChanged : ∀ p ≠ epochFile,
    (∃ q, ws.wsPath <+: q ∧ ws.tree q ≠ ws.inRoot q ∧ ws.printed q = p) ↔ ws.tree p ≠ ws.files p

theorem tree_eq {T : FiniteMap Names Leaf} (hT : ws.epochTree = some T) : ws.tree = T.lookup := by
  funext q
  rw [tree, hT, Option.bind_some]

theorem mem_trackedFilesAtEpoch (ws : CopyWorkspace) (p : Names) :
    p ∈ ws.trackedFilesAtEpoch ↔ ws.Tracked p := by
  rw [trackedFilesAtEpoch, Tracked]
  cases hT : ws.epochTree with
  | none => simp [tree, hT]
  | some T =>
    simp only [tree_eq hT, Finset.mem_image, Finmap.mem_keys, ← Finmap.lookup_isSome,
      Option.isSome_iff_ne_none]

/-- A path of the answer is one at which the epoch and the worktree of the root differ. -/
theorem mem_gitDiff (hpresent : ws.Present) : p ∈ ws.gitDiff ↔
    ∃ q, ws.wsPath <+: q ∧ ws.tree q ≠ ws.inRoot q ∧ ws.printed q = p := by
  obtain ⟨T, hT⟩ := Option.isSome_iff_exists.mp hpresent
  rw [gitDiff, hT, tree_eq hT]
  simp only [Finset.mem_image, Finset.mem_filter, Finset.mem_union, List.isPrefixOf_iff_prefix]
  constructor
  · rintro ⟨q, ⟨-, hpre, hne⟩, hq⟩
    exact ⟨q, hpre, hne, hq⟩
  · rintro ⟨q, hpre, hne, hq⟩
    refine ⟨q, ⟨?_, hpre, hne⟩, hq⟩
    by_contra hnot
    rw [not_or, Finmap.mem_keys, ← Finmap.lookup_eq_none] at hnot
    rw [hnot.1, inRoot, if_neg hnot.2] at hne
    exact hne rfl

theorem files_ne_none_iff : (ws.v.fs (ws.dir ++ p)).any (fun node => !node.isDir) = true ↔
    ws.files p ≠ none := by
  have hplain := ws.plain (ws.dir ++ p)
  rw [files, Volume.leaf]
  cases hnode : ws.v.fs (ws.dir ++ p) with
  | none => simp
  | some node =>
    rw [hnode] at hplain
    cases node with
    | file data =>
      cases data with
      | regular content executable => simp [leafOf, Node.isDir]
      | whiteout => cases hplain
    | link text => simp [leafOf, Node.isDir]
    | dir readable searchable => simp [leafOf, Node.isDir]

theorem mem_diffEpoch (hp : p ≠ epochFile) :
    (p ∈ ws.diffEpoch.added ↔ ws.files p ≠ none ∧ ¬ ws.Tracked p) ∧
    (p ∈ ws.diffEpoch.modified ↔
      ws.Tracked p ∧ ws.v.exists? ws.dir p = true ∧ ws.fileDiffersFromEpoch p = true) ∧
    (p ∈ ws.diffEpoch.deleted ↔ ws.Tracked p ∧ ¬ ws.v.exists? ws.dir p = true) := by
  have hwalk : p ∈ ws.walkWorkspace ↔ ws.files p ≠ none := by
    rw [walkWorkspace, ← files_ne_none_iff]
    refine (Volume.mem_plainWalk ws.dir_isDir).trans ?_
    simp only [implies_true, and_true]
    rfl
  simp only [diffEpoch, Finset.mem_filter, hwalk, mem_trackedFilesAtEpoch, ne_eq, hp,
    not_false_eq_true, true_and, and_true, Bool.not_eq_true]

/-- Exact lists from the tracked paths, what is there and a comparison. -/
theorem exactAt_tracked {old new : Option Leaf} {tracked there differs : Prop}
    (hnone : old = none → ¬ differs) :
    ExactAt old new (new ≠ none ∧ ¬ tracked) (tracked ∧ there ∧ differs) (tracked ∧ ¬ there) ↔
      (old ≠ none → tracked) ∧ (old ≠ none → (there ↔ new ≠ none)) ∧
        (new ≠ none → old ≠ none → (differs ↔ new ≠ old)) ∧
          (tracked → old = none → there ∧ new = none) := by
  rw [ExactAt, ne_comm (a := old) (b := new)]
  cases old with
  | none =>
    have hdiffers := hnone rfl
    cases new with
    | none => simp [hdiffers]
    | some leaf =>
      simp [hdiffers]
      tauto
  | some leaf =>
    cases new <;> simp <;> tauto

theorem fileDiffersFromEpoch_iff {leaf : Leaf} (hleaf : ws.tree p = some leaf) :
    ws.fileDiffersFromEpoch p = true ↔ ws.bytes leaf ≠ (ws.v.read ws.cwd p).getD [] := by
  rw [fileDiffersFromEpoch, hleaf]
  exact decide_eq_true_iff

/-- When the copy backend is exact. -/
theorem reports_iff :
    Reports epochFile ws.Present ws.tree ws.files ws.snapshot ws.status ↔ ws.Agrees := by
  have hdir : ws.v.exists? ws.dir [] = true := by
    obtain ⟨node, hnode, -⟩ := (Option.any_eq_true _ _).mp ws.dir_isDir
    rw [Volume.exists?, Volume.stat_nil, dir, hnode]
    rfl
  rw [snapshot, status, if_pos hdir, if_pos hdir, reports_ok_iff]
  have hexact (p : Names) (hp : p ≠ epochFile) : ExactAt (ws.tree p) (ws.files p)
      (p ∈ ws.diffEpoch.added) (p ∈ ws.diffEpoch.modified) (p ∈ ws.diffEpoch.deleted) ↔
      (ws.tree p ≠ none → ws.Tracked p) ∧
        (ws.tree p ≠ none → (ws.v.exists? ws.dir p = true ↔ ws.files p ≠ none)) ∧
          (ws.files p ≠ none → ws.tree p ≠ none →
            (ws.fileDiffersFromEpoch p = true ↔ ws.files p ≠ ws.tree p)) ∧
              (ws.Tracked p → ws.tree p = none → ws.v.exists? ws.dir p = true ∧ ws.files p = none) := by
    obtain ⟨hadded, hmodified, hdeleted⟩ := mem_diffEpoch hp
    rw [hadded, hmodified, hdeleted]
    refine exactAt_tracked fun hnone => ?_
    rw [fileDiffersFromEpoch, hnone]
    exact Bool.noConfusion
  constructor
  · rintro ⟨hpresent, hpaths⟩
    refine ⟨hpresent, fun p hp => ((hexact p hp).mp (hpaths p hp).1).1,
      fun p hp => ((hexact p hp).mp (hpaths p hp).1).2.1, fun p hp hfiles leaf hleaf => ?_,
      fun p hp => ((hexact p hp).mp (hpaths p hp).1).2.2.2, fun p hp => ?_⟩
    · have hdiffers := ((hexact p hp).mp (hpaths p hp).1).2.2.1 hfiles (by rw [hleaf]; simp)
      rwa [fileDiffersFromEpoch_iff hleaf, hleaf] at hdiffers
    · rw [← mem_gitDiff hpresent]
      exact (hpaths p hp).2
  · rintro ⟨hpresent, hprinted, hfound, hcompared, hother, hroot⟩
    refine ⟨hpresent, fun p hp => ⟨?_, (mem_gitDiff hpresent).trans (hroot p hp)⟩⟩
    refine (hexact p hp).mpr ⟨hprinted p hp, hfound p hp, fun hfiles htree => ?_, hother p hp⟩
    obtain ⟨leaf, hleaf⟩ := Option.ne_none_iff_exists'.mp htree
    rw [fileDiffersFromEpoch_iff hleaf, hleaf]
    exact hcompared p hp hfiles leaf hleaf

end CopyWorkspace

/-! ### All backends -/

/-- Workspaces of the three backends that came from one tree and have the same files. -/
structure Workspaces where
  T : Names → Option Leaf
  W : Names → Option Leaf
  overlay : OverlayWorkspace
  reflink : ReflinkWorkspace
  copy : CopyWorkspace
  overlay_tree : overlay.Present → ∀ p ≠ refcountFile, overlay.tree p = T p
  overlay_files : overlay.Present → ∀ p ≠ refcountFile, overlay.files p = W p
  reflink_tree : reflink.Present → ∀ p ≠ epochFile, reflink.tree p = T p
  reflink_files : reflink.Present → ∀ p ≠ epochFile, reflink.files p = W p
  copy_tree : copy.Present → ∀ p ≠ epochFile, copy.tree p = T p
  copy_files : copy.Present → ∀ p ≠ epochFile, copy.files p = W p

namespace Workspaces

variable (s : Workspaces)

/-- All backends report the exact difference, and a missing snapshot of the epoch as an error. -/
structure SameSnapshot : Prop where
  overlay : Reports refcountFile s.overlay.Present s.T s.W s.overlay.snapshot s.overlay.status
  reflink : Reports epochFile s.reflink.Present s.T s.W s.reflink.snapshot s.reflink.status
  copy : Reports epochFile s.copy.Present s.T s.W s.copy.snapshot s.copy.status

/-- The backends report the exact difference of exactly the workspaces on which each of them agrees. -/
theorem same_snapshot_iff :
    s.SameSnapshot ↔ s.overlay.Agrees ∧ s.reflink.Agrees ∧ s.copy.Agrees := by
  rw [← OverlayWorkspace.reports_iff, ← ReflinkWorkspace.reports_iff, ← CopyWorkspace.reports_iff,
    reports_congr s.overlay_tree s.overlay_files, reports_congr s.reflink_tree s.reflink_files,
    reports_congr s.copy_tree s.copy_files]
  exact ⟨fun h => ⟨h.overlay, h.reflink, h.copy⟩, fun h => ⟨h.1, h.2.1, h.2.2⟩⟩

end Workspaces

/-! ### A directory is deleted -/

/-- A disk from its nodes, if what stands above each is a directory. -/
def Volume.ofNodes (nodes : FiniteMap Names DiskNode)
    (h : ∀ q ∈ nodes.keys, (q ≠ [] → nodes.lookup q.dropLast = some (.dir true true)) ∧
      (nodes.lookup q).all (fun node => !node.isDir || node = .dir true true) = true) : Volume where
  nodes := nodes
  wellFormed place name hsome := by
    have habove := (h _ (Finmap.mem_keys.mpr (Finmap.lookup_isSome.mp hsome))).1 (by simp)
    rw [List.dropLast_concat] at habove
    simp only [habove, Option.any_some, Node.isDir]
  accessible place node hnode hdir := by
    have hall := (h place (Finmap.mem_keys.mpr (FiniteMap.mem_of_lookup hnode))).2
    rw [hnode, Option.all_some, hdir] at hall
    simpa using hall
  maxLinks := 40

/-- The files below a directory of a disk, from a check of its nodes. -/
theorem Volume.leaf_eq {v : Volume} {root : Names} {T : Names → Option Leaf}
    (hnodes : ∀ q ∈ v.nodes.keys, root <+: q → (v.fs q).bind leafOf = T (q.drop root.length))
    (hT : ∀ p, T p ≠ none → root ++ p ∈ v.nodes.keys) (p : Names) : v.leaf root p = T p := by
  by_cases hp : root ++ p ∈ v.nodes.keys
  · have hleaf := hnodes _ hp (List.prefix_append root p)
    rwa [List.drop_left] at hleaf
  · rw [Finmap.mem_keys, ← Finmap.lookup_eq_none] at hp
    rw [leaf, fs, hp, Option.bind_none]
    by_contra hne
    have hmem := hT p (Ne.symm hne)
    rw [Finmap.mem_keys, ← Finmap.lookup_isSome, hp] at hmem
    cases hmem

theorem Volume.any_eq_false {v : Volume} {pred : DiskNode → Bool}
    (hnodes : ∀ q ∈ v.nodes.keys, (v.fs q).any pred = false) (place : Names) :
    (v.fs place).any pred = false := by
  by_cases hplace : place ∈ v.nodes.keys
  · exact hnodes place hplace
  · rw [Finmap.mem_keys, ← Finmap.lookup_eq_none] at hplace
    rw [fs, hplace, Option.any_none]

section Sample

def sampleDir : Component := Component.lit "dir"

def sampleFile : Names := [sampleDir, Component.lit "file"]

def sampleData : DiskNode := .file (.regular [1] false)

/-- One file in a directory. -/
def sampleTree : Names → Option Leaf := fun p =>
  if p = sampleFile then some (.regular [1] false) else none

def layer (name : String) (h : name.toList ≠ [] ∧ '/' ∉ name.toList := by decide) : Names :=
  [Component.lit name h]

def upperNodes : FiniteMap Names DiskNode :=
  List.toFinmap [⟨[], .dir true true⟩, ⟨layer "lower", .dir true true⟩,
    ⟨layer "lower" ++ [sampleDir], .dir true true⟩, ⟨layer "lower" ++ sampleFile, sampleData⟩,
    ⟨layer "upper", .dir true true⟩, ⟨layer "upper" ++ [sampleDir], .file .whiteout⟩]

/-- The directory is hidden by a whiteout. -/
def sampleOverlay : OverlayWorkspace where
  v := Volume.ofNodes upperNodes (by decide +kernel)
  upper := layer "upper"
  lower := layer "lower"
  marked := ∅
  upper_isDir := by decide +kernel

def baseNodes : FiniteMap Names DiskNode :=
  List.toFinmap [⟨[], .dir true true⟩, ⟨layer "base", .dir true true⟩,
    ⟨layer "base" ++ [sampleDir], .dir true true⟩, ⟨layer "base" ++ sampleFile, sampleData⟩,
    ⟨layer "ws", .dir true true⟩]

def sampleReflink : ReflinkWorkspace where
  v := Volume.ofNodes baseNodes (by decide +kernel)
  base := layer "base"
  ws := layer "ws"
  ws_isDir := by decide +kernel

def copyNodes : FiniteMap Names DiskNode :=
  List.toFinmap [⟨[], .dir true true⟩, ⟨layer "ws", .dir true true⟩]

def sampleCopy : CopyWorkspace where
  v := Volume.ofNodes copyNodes (by decide +kernel)
  root := []
  wsPath := layer "ws"
  cwd := []
  epochTree := some (Finmap.singleton sampleFile (.regular [1] false))
  index := ∅
  printed := id
  linkBytes _ := []
  dir_isDir := by decide +kernel
  plain := Volume.any_eq_false (by decide +kernel)

theorem sampleTree_ne_none {p : Names} (hp : sampleTree p ≠ none) : p = sampleFile := by
  by_contra hne
  rw [sampleTree, if_neg hne] at hp
  exact hp rfl

theorem sampleOverlay_tree (p : Names) : sampleOverlay.tree p = sampleTree p := by
  refine Volume.leaf_eq (by decide +kernel) (fun p hp => ?_) p
  rw [sampleTree_ne_none hp]
  decide +kernel

theorem sampleOverlay_files (p : Names) : sampleOverlay.files p = none := by
  have hupper (p : Names) : sampleOverlay.v.leaf sampleOverlay.upper p = none :=
    Volume.leaf_eq (T := fun _ => none) (by decide +kernel) (fun _ h => absurd rfl h) p
  have hleaf := hupper p
  rw [Volume.leaf] at hleaf
  rw [OverlayWorkspace.files]
  cases hnode : sampleOverlay.v.fs (sampleOverlay.upper ++ p) with
  | some node =>
    rw [hnode] at hleaf
    exact hleaf
  | none =>
    by_cases hp : p = sampleFile
    · rw [hp]
      decide +kernel
    · have htree : sampleOverlay.tree p = none := by
        rw [sampleOverlay_tree, sampleTree, if_neg hp]
      simp only [htree, ite_self]

/-- The directory is gone from each workspace. -/
def sampleWorkspaces : Workspaces where
  T := sampleTree
  W _ := none
  overlay := sampleOverlay
  reflink := sampleReflink
  copy := sampleCopy
  overlay_tree _ p _ := sampleOverlay_tree p
  overlay_files _ p _ := sampleOverlay_files p
  reflink_tree _ p _ := by
    refine Volume.leaf_eq (by decide +kernel) (fun p hp => ?_) p
    rw [sampleTree_ne_none hp]
    decide +kernel
  reflink_files _ p _ :=
    Volume.leaf_eq (T := fun _ => none) (by decide +kernel) (fun _ h => absurd rfl h) p
  copy_tree _ p _ := by
    rw [CopyWorkspace.tree_eq (T := Finmap.singleton sampleFile (.regular [1] false)) rfl, sampleTree]
    split_ifs with hp
    · rw [hp]
      exact Finmap.lookup_singleton_eq
    · exact Finmap.lookup_eq_none.mpr (by rwa [Finmap.mem_singleton])
  copy_files _ p _ :=
    Volume.leaf_eq (T := fun _ => none) (by decide +kernel) (fun _ h => absurd rfl h) p

/-- The overlay backend reports a deleted directory as one deleted path and not its files. -/
theorem not_same_snapshot : ¬ ∀ s : Workspaces, s.SameSnapshot := by
  intro h
  have hpresent : sampleOverlay.Present := by
    rw [OverlayWorkspace.Present]
    decide +kernel
  obtain ⟨r, hr, hexact⟩ := (h sampleWorkspaces).overlay.exact hpresent
  have hdiff : sampleOverlay.snapshot = .ok sampleOverlay.diffUpperVsLower := if_pos (by decide +kernel)
  obtain rfl : sampleOverlay.diffUpperVsLower = r := Except.ok.inj (hdiff.symm.trans hr)
  have hfile : sampleFile ∈ sampleOverlay.diffUpperVsLower.deleted :=
    (hexact.deleted sampleFile (by decide)).mpr ⟨by decide, rfl⟩
  exact absurd hfile (by decide +kernel)

end Sample

end Maw.BackendDiff
