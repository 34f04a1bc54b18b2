import Maw.Lfs.Attrs
import Maw.Lfs.PointerCodec
import Maw.Merge.WriteTree

/-!
# The LFS objects of a tree

Before a push, the trees of the new commits are searched for pointers. A walk over the tree objects
lists the files of a tree and its `.gitattributes` files; those paths that the attributes store in
LFS are read, and the pointers among them give the objects to upload.

## Main definitions

* `TreeRepo`, `Below` — the stored objects, and what lies below a tree.
* `TreeRepo.walkTree`, `TreeRepo.collectFromTree` — the walk and the search of a tree.
* `IsTracked`, `HasObject` — the paths of a tree that are stored in LFS, and its LFS objects.

## Main results

* `IsItem.mem_walkTree` — the walk lists what lies below the tree.
* `collectFromTree_eq_ok` — the search finds the LFS objects of the tree and nothing else.
* `exists_collectFromTree` — it fails only where an object cannot be read, or a pattern is negated.
-/

open Lines LastMatch PrefixOrder Maw.WriteTree

namespace Maw.Lfs

/-! ### Collecting into a map -/

section Gains

variable {κ ν ι ε : Type} [DecidableEq κ] {Has Has' : κ → ν → Prop} {out out' : FiniteMap κ ν}

/-- A map loses no entry, gains entries of one kind only, and has the keys of all of that kind. -/
structure Gains (Has : κ → ν → Prop) (out out' : FiniteMap κ ν) : Prop where
  keeps : ∀ k v, out.lookup k = some v → out'.lookup k = some v
  sound : ∀ k v, out'.lookup k = some v → out.lookup k = some v ∨ Has k v
  complete : ∀ k v, Has k v → k ∈ out'

theorem Gains.refl (h : ∀ k v, Has k v → k ∈ out) : Gains Has out out :=
  ⟨fun _ _ => id, fun _ _ => .inl, h⟩

theorem Gains.congr (h : Gains Has out out') (hhas : ∀ k v, Has k v ↔ Has' k v) :
    Gains Has' out out' :=
  ⟨h.keeps, fun k v hk => (h.sound k v hk).imp_right (hhas k v).mp,
    fun k v hk => h.complete k v ((hhas k v).mpr hk)⟩

/-- A fallible loop gains what its items have if each step gains what its own item has. -/
theorem gains_foldlM {step : FiniteMap κ ν → ι → Except ε (FiniteMap κ ν)}
    {Has : ι → κ → ν → Prop} {l : List ι}
    (hstep : ∀ a ∈ l, ∀ s s', step s a = .ok s' → Gains (Has a) s s')
    (h : l.foldlM step out = .ok out') : Gains (fun k v => ∃ a ∈ l, Has a k v) out out' := by
  induction l generalizing out with
  | nil =>
    obtain rfl := ExceptRun.pure_eq_ok.mp h
    exact .refl (by simp)
  | cons a l ih =>
    rw [List.foldlM_cons] at h
    obtain ⟨s, ha, hrest⟩ := ExceptRun.bind_eq_ok.mp h
    have hfirst := hstep a List.mem_cons_self _ _ ha
    have hlast := ih (fun b hb => hstep b (List.mem_cons_of_mem _ hb)) hrest
    refine ⟨fun k v hk => hlast.keeps k v (hfirst.keeps k v hk), fun k v hk => ?_, ?_⟩
    · rcases hlast.sound k v hk with hk | ⟨b, hb, hhas⟩
      · exact (hfirst.sound k v hk).imp_right fun hhas => ⟨a, List.mem_cons_self, hhas⟩
      · exact .inr ⟨b, List.mem_cons_of_mem _ hb, hhas⟩
    · rintro k v ⟨b, hb, hhas⟩
      rcases List.mem_cons.mp hb with rfl | hb
      · obtain ⟨w, hw⟩ := Finmap.mem_iff.mp (hfirst.complete k v hhas)
        exact FiniteMap.mem_of_lookup (hlast.keeps k w hw)
      · exact hlast.complete k v ⟨b, hb, hhas⟩

end Gains

/-! ### Tree objects -/

/-- The objects of a repository: the tree objects, in which no name occurs twice, and the blobs. -/
structure TreeRepo where
  trees : TreeStore
  readBlob : GitOid → Option Bytes
  distinct : ∀ oid entries, trees.lookup oid = some entries → (entries.map TreeEntry.name).Nodup

inductive ScanError
  | readTree (oid : GitOid)
  | readBlob (oid : GitOid)
  | attrs (error : AttrsError)
  deriving DecidableEq, Repr

/-- An entry lies in a directory below a tree. -/
inductive Below (trees : TreeStore) : GitOid → Dir → TreeEntry → Prop
  | here {oid : GitOid} {entries : List TreeEntry} {e : TreeEntry}
      (hoid : trees.lookup oid = some entries) (he : e ∈ entries) : Below trees oid [] e
  | under {oid : GitOid} {entries : List TreeEntry} {d e : TreeEntry} {dir : Dir}
      (hoid : trees.lookup oid = some entries) (hd : d ∈ entries) (hmode : d.mode = .tree)
      (h : Below trees d.oid dir e) : Below trees oid (d.name :: dir) e

def nameUtf8 (c : Component) : Bytes := c.text.toList.flatMap String.utf8EncodeChar

/-- A directory as it is written in front of the paths below it. -/
def dirBytes (dir : Dir) : Bytes := unlines 0x2F (dir.map nameUtf8)

def gitattributes : Component := Component.lit ".gitattributes"

/-- Whether an entry is a file; links and submodules are none. -/
def isFile (e : TreeEntry) : Bool := e.mode = .blob || e.mode = .blobExecutable

namespace TreeRepo

variable (repo : TreeRepo)

/-- The files with their blobs and the `.gitattributes` files with their contents. -/
abbrev Listing := List (Bytes × GitOid) × List (Bytes × Bytes)

/-- What one entry adds, given the walk of a subtree. -/
def walkEntry (walk : GitOid → Bytes → Except ScanError Listing) (pre : Bytes) (e : TreeEntry) :
    Except ScanError Listing :=
  if e.mode = .tree then walk e.oid (pre ++ nameUtf8 e.name ++ [0x2F])
  else if isFile e then
    if e.name = gitattributes then
      match repo.readBlob e.oid with
      | none => throw (.readBlob e.oid)
      | some bytes => pure ([], [(pre, bytes)])
    else pure ([(pre ++ nameUtf8 e.name, e.oid)], [])
  else pure ([], [])

/-- List what lies below a tree, so many directories deep. -/
def walkTree : (fuel : ℕ) → GitOid → (pre : Bytes) → Except ScanError Listing
  | 0, oid, _ => throw (.readTree oid)
  | fuel + 1, oid, pre =>
    match repo.trees.lookup oid with
    | none => throw (.readTree oid)
    | some entries => do
      let parts ← entries.mapM (repo.walkEntry (walkTree fuel) pre)
      pure (parts.flatMap Prod.fst, parts.flatMap Prod.snd)

/-- The objects found so far, with the object of one more blob. -/
def collectBlob {P : Type} (globs : GlobLibrary P) (matcher : AttrsMatcher P)
    (out : FiniteMap Oid UInt64) (file : Bytes × GitOid) :
    Except ScanError (FiniteMap Oid UInt64) :=
  if !matcher.isLfs globs file.1 then pure out
  else
    match repo.readBlob file.2 with
    | none => throw (.readBlob file.2)
    | some bytes =>
      if !looksLikePointer bytes then pure out
      else
        match Pointer.parse bytes with
        | .error _ => pure out
        | .ok pointer =>
          pure (if pointer.oid ∈ out then out else out.insert pointer.oid pointer.size)

/-- The objects of a tree, added to those found so far. -/
def collectFromTree {P : Type} (globs : GlobLibrary P) (fuel : ℕ)
    (out : FiniteMap Oid UInt64) (treeOid : GitOid) :
    Except ScanError (FiniteMap Oid UInt64) := do
  let (blobs, attrsEntries) ← repo.walkTree fuel treeOid []
  if attrsEntries.isEmpty then pure out
  else
    let matcher ← (AttrsMatcher.fromEntries globs attrsEntries).mapError .attrs
    blobs.foldlM (repo.collectBlob globs matcher) out

/-! ### What the walk lists -/

section Walk

variable {repo} {fuel : ℕ} {oid : GitOid} {pre : Bytes} {listing : Listing}

theorem below_iff {trees : TreeStore} {dir : Dir} {e : TreeEntry} :
    Below trees oid dir e ↔ ∃ entries, trees.lookup oid = some entries ∧
      ∃ d ∈ entries, (dir = [] ∧ e = d) ∨
        (d.mode = .tree ∧ ∃ rest, dir = d.name :: rest ∧ Below trees d.oid rest e) := by
  constructor
  · rintro (⟨hoid, he⟩ | ⟨hoid, hd, hmode, h⟩)
    · exact ⟨_, hoid, e, he, .inl ⟨rfl, rfl⟩⟩
    · exact ⟨_, hoid, _, hd, .inr ⟨hmode, _, rfl, h⟩⟩
  · rintro ⟨entries, hoid, d, hd, ⟨rfl, rfl⟩ | ⟨hmode, rest, rfl, h⟩⟩
    · exact .here hoid hd
    · exact .under hoid hd hmode h

theorem dirBytes_cons (name : Component) (dir : Dir) :
    dirBytes (name :: dir) = nameUtf8 name ++ 0x2F :: dirBytes dir := by
  rw [dirBytes, List.map_cons, unlines_cons]
  rfl

/-- The item that an entry of a directory is listed as. -/
structure IsItem {α : Type*} (repo : TreeRepo) (proj : Listing → List α)
    (Item : Bytes → Dir → TreeEntry → α → Prop) : Prop where
  flatMap : ∀ parts : List Listing,
    proj (parts.flatMap Prod.fst, parts.flatMap Prod.snd) = parts.flatMap proj
  cons : ∀ pre name dir e item, Item pre (name :: dir) e item ↔
    Item (pre ++ nameUtf8 name ++ [0x2F]) dir e item
  not_tree : ∀ pre e item, e.mode = .tree → ¬ Item pre [] e item
  entry : ∀ walk pre e part, e.mode ≠ .tree → repo.walkEntry walk pre e = .ok part →
    ∀ item, item ∈ proj part ↔ Item pre [] e item

/-- The walk lists the items of the entries below a tree. -/
theorem IsItem.mem_walkTree {α : Type*} {proj : Listing → List α}
    {Item : Bytes → Dir → TreeEntry → α → Prop} (hitem : IsItem repo proj Item)
    (h : repo.walkTree fuel oid pre = .ok listing) {item : α} :
    item ∈ proj listing ↔ ∃ dir e, Below repo.trees oid dir e ∧ Item pre dir e item := by
  induction fuel generalizing oid pre listing with
  | zero => cases h
  | succ fuel ih =>
    rw [walkTree] at h
    rcases hoid : repo.trees.lookup oid with _ | entries
    · rw [hoid] at h
      cases h
    rw [hoid] at h
    obtain ⟨parts, hparts, heq⟩ := ExceptRun.bind_eq_ok.mp h
    obtain rfl := ExceptRun.pure_eq_ok.mp heq
    rw [hitem.flatMap, List.mem_flatMap]
    constructor
    · rintro ⟨part, hpart, hmem⟩
      obtain ⟨d, hd, hwalk⟩ := ExceptRun.exists_of_mem_mapM hparts hpart
      by_cases hmode : d.mode = .tree
      · rw [walkEntry, if_pos hmode] at hwalk
        obtain ⟨dir, e, hbelow, h⟩ := (ih hwalk).mp hmem
        exact ⟨d.name :: dir, e, .under hoid hd hmode hbelow, (hitem.cons ..).mpr h⟩
      · exact ⟨[], d, .here hoid hd, (hitem.entry _ _ _ _ hmode hwalk item).mp hmem⟩
    · rintro ⟨dir, e, hbelow, h⟩
      obtain ⟨entries', hoid', d, hd, hcases⟩ := below_iff.mp hbelow
      obtain rfl := Option.some.inj (hoid.symm.trans hoid')
      obtain ⟨part, hpart, hwalk⟩ := ExceptRun.exists_mem_of_mapM hparts hd
      refine ⟨part, hpart, ?_⟩
      rcases hcases with ⟨rfl, rfl⟩ | ⟨hmode, rest, rfl, hbelow'⟩
      · have hmode : e.mode ≠ .tree := fun hmode => hitem.not_tree _ _ _ hmode h
        exact (hitem.entry _ _ _ _ hmode hwalk item).mpr h
      · rw [walkEntry, if_pos hmode] at hwalk
        exact (ih hwalk).mpr ⟨rest, e, hbelow', (hitem.cons ..).mp h⟩

/-- A file is listed with its path and its blob. -/
def BlobItem (pre : Bytes) (dir : Dir) (e : TreeEntry) (item : Bytes × GitOid) : Prop :=
  isFile e = true ∧ e.name ≠ gitattributes ∧
    item = (pre ++ dirBytes dir ++ nameUtf8 e.name, e.oid)

/-- A `.gitattributes` file is listed with its directory and its contents. -/
def AttrsItem (repo : TreeRepo) (pre : Bytes) (dir : Dir) (e : TreeEntry)
    (item : Bytes × Bytes) : Prop :=
  isFile e = true ∧ e.name = gitattributes ∧ item.1 = pre ++ dirBytes dir ∧
    repo.readBlob e.oid = some item.2

theorem not_isFile_of_tree {e : TreeEntry} (h : e.mode = .tree) : isFile e = false := by
  rw [isFile, h]
  rfl

theorem isItem_blob (repo : TreeRepo) : IsItem repo Prod.fst BlobItem where
  flatMap _ := rfl
  cons pre name dir e item := by simp [BlobItem, dirBytes_cons]
  not_tree pre e item hmode h := by
    rw [BlobItem, not_isFile_of_tree hmode] at h
    exact Bool.false_ne_true h.1
  entry walk pre e part hmode h item := by
    rw [walkEntry, if_neg hmode] at h
    rw [BlobItem]
    split_ifs at h with hfile hname
    · rcases hblob : repo.readBlob e.oid with _ | bytes
      · rw [hblob] at h
        cases h
      · rw [hblob] at h
        obtain rfl := ExceptRun.pure_eq_ok.mp h
        simp [hname]
    · obtain rfl := ExceptRun.pure_eq_ok.mp h
      simp [hfile, hname, dirBytes]
    · obtain rfl := ExceptRun.pure_eq_ok.mp h
      simp [hfile]

theorem isItem_attrs (repo : TreeRepo) : IsItem repo Prod.snd (AttrsItem repo) where
  flatMap _ := rfl
  cons pre name dir e item := by simp [AttrsItem, dirBytes_cons]
  not_tree pre e item hmode h := by
    rw [AttrsItem, not_isFile_of_tree hmode] at h
    exact Bool.false_ne_true h.1
  entry walk pre e part hmode h item := by
    rw [walkEntry, if_neg hmode] at h
    rw [AttrsItem]
    split_ifs at h with hfile hname
    · rcases hblob : repo.readBlob e.oid with _ | bytes
      · rw [hblob] at h
        cases h
      · rw [hblob] at h
        obtain rfl := ExceptRun.pure_eq_ok.mp h
        rcases item with ⟨dir, contents⟩
        simp [hfile, hname, dirBytes, eq_comm]
    · obtain rfl := ExceptRun.pure_eq_ok.mp h
      simp [hname]
    · obtain rfl := ExceptRun.pure_eq_ok.mp h
      simp [hfile]

/-! ### Directories -/

theorem slash_notMem_nameUtf8 (c : Component) : 0x2F ∉ nameUtf8 c := by
  intro hmem
  exact slash_notMem_nameBytes c (List.mem_map.mpr ⟨0x2F, hmem, rfl⟩)

theorem nameUtf8_injective : Function.Injective nameUtf8 := fun _ _ h =>
  nameBytes_injective (congrArg (List.map UInt8.toNat) h)

theorem nameUtf8_ne_nil (c : Component) : nameUtf8 c ≠ [] := by
  intro hnil
  rw [nameUtf8, List.flatMap_eq_nil_iff] at hnil
  obtain ⟨char, hchar⟩ := List.exists_mem_of_ne_nil _ c.isName.1
  have hlength := congrArg List.length (hnil char hchar)
  rw [String.length_utf8EncodeChar] at hlength
  exact absurd hlength (Char.utf8Size_pos char).ne'

theorem isDirPrefix_dirBytes (dir : Dir) : IsDirPrefix (dirBytes dir) := by
  rcases dir with _ | ⟨name, dir⟩
  · exact .inl rfl
  · exact .inr (getLast?_unlines (List.cons_ne_nil _ _))

/-- The paths of a tree do not begin with a slash. -/
theorem trimStartSlashes_path (dir : Dir) (name : Component) :
    trimStartSlashes (dirBytes dir ++ nameUtf8 name) = dirBytes dir ++ nameUtf8 name := by
  have hfirst : ∃ c rest, dirBytes dir ++ nameUtf8 name = nameUtf8 c ++ rest := by
    rcases dir with _ | ⟨first, dir⟩
    · exact ⟨name, [], by rw [List.append_nil]; rfl⟩
    · exact ⟨first, _, by rw [dirBytes_cons, List.append_assoc]⟩
  obtain ⟨c, rest, hpath⟩ := hfirst
  rw [hpath]
  obtain ⟨b, bytes, hbytes⟩ := List.exists_cons_of_ne_nil (nameUtf8_ne_nil c)
  have hb : b ≠ 0x2F := fun hb => slash_notMem_nameUtf8 c (by rw [hbytes, hb]; simp)
  rw [hbytes, List.cons_append, trimStartSlashes, List.dropWhile_cons_of_neg (by simpa using hb)]

/-- What the first directory below a prefix was. -/
theorem dir_injective {a b : Component} {x y : Bytes}
    (h : pre ++ nameUtf8 a ++ [0x2F] ++ x = pre ++ nameUtf8 b ++ [0x2F] ++ y) : a = b := by
  simp only [List.append_assoc, List.append_cancel_left_eq] at h
  exact nameUtf8_injective
    ((append_sep_inj (slash_notMem_nameUtf8 a) (slash_notMem_nameUtf8 b)).mp h).1

/-- The directories in which one entry gives a `.gitattributes` file. -/
theorem dir_of_mem_walkEntry {e : TreeEntry} {part : Listing}
    (h : repo.walkEntry (repo.walkTree fuel) pre e = .ok part) {dir : Bytes}
    (hdir : dir ∈ part.2.map Prod.fst) :
    (e.name = gitattributes ∧ dir = pre) ∨ ∃ rest, dir = pre ++ nameUtf8 e.name ++ [0x2F] ++ rest := by
  obtain ⟨item, hitem, rfl⟩ := List.mem_map.mp hdir
  by_cases hmode : e.mode = .tree
  · rw [walkEntry, if_pos hmode] at h
    obtain ⟨below, _, -, -, -, heq, -⟩ := (repo.isItem_attrs.mem_walkTree h).mp hitem
    exact .inr ⟨_, heq⟩
  · obtain ⟨-, hname, heq, -⟩ := (repo.isItem_attrs.entry _ _ _ _ hmode h item).mp hitem
    refine .inl ⟨hname, ?_⟩
    rw [heq, dirBytes, List.map_nil, unlines_nil, List.append_nil]

/-- Entries with different names give `.gitattributes` files in different directories. -/
theorem disjoint_dirs {a b : TreeEntry} (hne : a.name ≠ b.name) {part part' : Listing}
    (ha : repo.walkEntry (repo.walkTree fuel) pre a = .ok part)
    (hb : repo.walkEntry (repo.walkTree fuel) pre b = .ok part') :
    (part.2.map Prod.fst).Disjoint (part'.2.map Prod.fst) := by
  intro dir hdir hdir'
  have hlonger (c : Component) (rest : Bytes) : pre ≠ pre ++ nameUtf8 c ++ [0x2F] ++ rest := by
    intro h
    have hlength := congrArg List.length h
    simp at hlength
  rcases dir_of_mem_walkEntry ha hdir with ⟨hname, hpre⟩ | ⟨rest, hrest⟩
  · rcases dir_of_mem_walkEntry hb hdir' with ⟨hname', -⟩ | ⟨rest', hrest'⟩
    · exact hne (hname.trans hname'.symm)
    · exact hlonger _ _ (hpre.symm.trans hrest')
  · rcases dir_of_mem_walkEntry hb hdir' with ⟨-, hpre'⟩ | ⟨rest', hrest'⟩
    · exact hlonger _ _ (hpre'.symm.trans hrest)
    · exact hne (dir_injective (hrest.symm.trans hrest'))

/-- Each directory has at most one `.gitattributes` file. -/
theorem nodup_dirs (h : repo.walkTree fuel oid pre = .ok listing) :
    (listing.2.map Prod.fst).Nodup := by
  induction fuel generalizing oid pre listing with
  | zero => cases h
  | succ fuel ih =>
    rw [walkTree] at h
    rcases hoid : repo.trees.lookup oid with _ | entries
    · rw [hoid] at h
      cases h
    rw [hoid] at h
    obtain ⟨parts, hparts, heq⟩ := ExceptRun.bind_eq_ok.mp h
    obtain rfl := ExceptRun.pure_eq_ok.mp heq
    rw [List.map_flatMap, List.nodup_flatMap]
    constructor
    · intro part hpart
      obtain ⟨e, -, hwalk⟩ := ExceptRun.exists_of_mem_mapM hparts hpart
      rw [walkEntry] at hwalk
      split_ifs at hwalk with hmode hfile hname
      · exact ih hwalk
      · rcases hblob : repo.readBlob e.oid with _ | bytes
        · rw [hblob] at hwalk
          cases hwalk
        · rw [hblob] at hwalk
          obtain rfl := ExceptRun.pure_eq_ok.mp hwalk
          simp
      · obtain rfl := ExceptRun.pure_eq_ok.mp hwalk
        simp
      · obtain rfl := ExceptRun.pure_eq_ok.mp hwalk
        simp
    · have hdistinct := repo.distinct oid entries hoid
      rw [List.Nodup, List.pairwise_map] at hdistinct
      exact ExceptRun.pairwise_of_mapM (R := fun a b : TreeEntry => a.name ≠ b.name)
        (fun _ _ _ _ hne => disjoint_dirs hne) hparts hdistinct

end Walk

/-! ### The LFS objects of a tree -/

section Objects

variable {P : Type} (globs : GlobLibrary P)

/-- A line of one of the `.gitattributes` files of a tree. -/
def TreeLine (treeOid : GitOid) (line : AttrLine P) : Prop :=
  ∃ dir e contents rules, Below repo.trees treeOid dir e ∧ isFile e = true ∧
    e.name = gitattributes ∧ line.dir = dirBytes dir ∧ repo.readBlob e.oid = some contents ∧
    parseRules globs contents line.dir = .ok rules ∧ rules[line.index]? = some line.rule

/-- By its attributes, a path of a tree is stored in LFS. -/
def IsTracked (treeOid : GitOid) (path : Bytes) : Prop :=
  ∃ line, Governs globs Rule.lfs? (repo.TreeLine globs treeOid) path line true

/-- A file of a tree that is stored in LFS is a pointer to an object. -/
def HasObject (treeOid : GitOid) (oid : Oid) (size : UInt64) : Prop :=
  ∃ dir e bytes extensions, Below repo.trees treeOid dir e ∧ isFile e = true ∧
    e.name ≠ gitattributes ∧ repo.IsTracked globs treeOid (dirBytes dir ++ nameUtf8 e.name) ∧
    repo.readBlob e.oid = some bytes ∧ Pointer.parse bytes = .ok ⟨oid, size, extensions⟩

variable {repo globs} {fuel : ℕ} {treeOid : GitOid} {listing : Listing} {matcher : AttrsMatcher P}
  {out out' : FiniteMap Oid UInt64} {oid : Oid} {size : UInt64}

theorem isLine_iff (h : repo.walkTree fuel treeOid [] = .ok listing) {line : AttrLine P} :
    IsLine globs listing.2 line ↔ repo.TreeLine globs treeOid line := by
  rw [IsLine, TreeLine]
  constructor
  · rintro ⟨contents, rules, hmem, hrules, hrule⟩
    obtain ⟨dir, e, hbelow, hfile, hname, hdir, hblob⟩ := (repo.isItem_attrs.mem_walkTree h).mp hmem
    exact ⟨dir, e, contents, rules, hbelow, hfile, hname, hdir, hblob, hrules, hrule⟩
  · rintro ⟨dir, e, contents, rules, hbelow, hfile, hname, hdir, hblob, hrules, hrule⟩
    exact ⟨contents, rules, (repo.isItem_attrs.mem_walkTree h).mpr
      ⟨dir, e, hbelow, hfile, hname, hdir, hblob⟩, hrules, hrule⟩

/-- The matcher of a tree says which of its paths are stored in LFS. -/
theorem isLfs_iff (h : repo.walkTree fuel treeOid [] = .ok listing)
    (hmatcher : AttrsMatcher.fromEntries globs listing.2 = .ok matcher) (dir : Dir)
    (name : Component) : matcher.isLfs globs (dirBytes dir ++ nameUtf8 name) = true ↔
      repo.IsTracked globs treeOid (dirBytes dir ++ nameUtf8 name) := by
  have hdirs : ∀ entry ∈ listing.2, IsDirPrefix entry.1 := by
    intro entry hentry
    obtain ⟨dir, _, -, -, -, hdir, -⟩ := (repo.isItem_attrs.mem_walkTree h).mp hentry
    rw [hdir]
    exact isDirPrefix_dirBytes dir
  rw [AttrsMatcher.isLfs, trimStartSlashes_path,
    resolve_fromEntries hmatcher hdirs (nodup_dirs h), IsTracked]
  simp only [Governs, isLine_iff h, Bool.false_eq_true, false_and, or_false]

/-- A step of the search finds the object of a pointer that is stored in LFS. -/
theorem collectBlob_eq_ok {file : Bytes × GitOid}
    (h : repo.collectBlob globs matcher out file = .ok out') :
    Gains (fun oid size => matcher.isLfs globs file.1 = true ∧ ∃ bytes extensions,
      repo.readBlob file.2 = some bytes ∧ Pointer.parse bytes = .ok ⟨oid, size, extensions⟩)
        out out' := by
  rw [collectBlob] at h
  split_ifs at h with hlfs
  · obtain rfl := ExceptRun.pure_eq_ok.mp h
    exact .refl fun _ _ hhas => by simp [hhas.1] at hlfs
  rw [Bool.not_eq_true', Bool.not_eq_false] at hlfs
  rcases hblob : repo.readBlob file.2 with _ | bytes
  · rw [hblob] at h
    cases h
  rw [hblob] at h
  have hgains : Gains (fun oid size => ∃ extensions,
      Pointer.parse bytes = .ok ⟨oid, size, extensions⟩) out out' := by
    dsimp only at h
    split_ifs at h with hlooks
    · obtain rfl := ExceptRun.pure_eq_ok.mp h
      refine .refl fun oid size ⟨extensions, hparse⟩ => ?_
      rw [looksLikePointer_of_parse hparse] at hlooks
      cases hlooks
    rcases hparse : Pointer.parse bytes with e | pointer
    · rw [hparse] at h
      obtain rfl := ExceptRun.pure_eq_ok.mp h
      exact .refl fun oid size ⟨extensions, hok⟩ => by cases hok
    rw [hparse] at h
    obtain rfl := ExceptRun.pure_eq_ok.mp h
    have hpointer {oid : Oid} {size : UInt64} {extensions : List (Bytes × Bytes)}
        (h : (.ok pointer : Except ParseError Pointer) = .ok ⟨oid, size, extensions⟩) :
        oid = pointer.oid := by rw [Except.ok.inj h]
    split_ifs with hmem
    · exact .refl fun oid size ⟨extensions, hok⟩ => hpointer hok ▸ hmem
    refine ⟨fun oid size hoid => ?_, fun oid size hoid => ?_, ?_⟩
    · have hne : oid ≠ pointer.oid := fun heq => hmem (heq ▸ FiniteMap.mem_of_lookup hoid)
      rwa [FiniteMap.lookup_insert, if_neg hne]
    · rw [FiniteMap.lookup_insert] at hoid
      split_ifs at hoid with heq
      · obtain rfl := Option.some.inj hoid
        exact .inr ⟨pointer.extensions, by rw [heq]⟩
      · exact .inl hoid
    · exact fun oid size ⟨extensions, hok⟩ => Finmap.mem_insert.mpr (.inl (hpointer hok))
  exact hgains.congr fun oid size => by simp [hlfs]

/-- The search finds the objects of the tree and nothing else. -/
theorem collectFromTree_eq_ok (h : repo.collectFromTree globs fuel out treeOid = .ok out') :
    Gains (repo.HasObject globs treeOid) out out' := by
  rw [collectFromTree, ExceptRun.bind_eq_ok] at h
  obtain ⟨⟨blobs, attrs⟩, hwalk, h⟩ := h
  dsimp only at h
  split_ifs at h with hempty
  · -- Without a `.gitattributes` file no path is stored in LFS.
    obtain rfl := ExceptRun.pure_eq_ok.mp h
    rw [List.isEmpty_iff] at hempty
    subst hempty
    refine .refl ?_
    rintro oid size ⟨dir, e, bytes, extensions, -, -, -, ⟨line, hline, -⟩, -⟩
    obtain ⟨contents, rules, hmem, -⟩ := (isLine_iff hwalk).mpr hline
    cases hmem
  obtain ⟨matcher, hmatcher, h⟩ := ExceptRun.bind_eq_ok.mp h
  rw [ExceptRun.mapError_eq_ok] at hmatcher
  refine (gains_foldlM (fun _ _ _ _ hstep => collectBlob_eq_ok hstep) h).congr fun oid size => ⟨?_, ?_⟩
  · rintro ⟨file, hmem, hlfs, bytes, ext, hblob, hparse⟩
    obtain ⟨dir, e, hbelow, hfile, hname, rfl⟩ := (repo.isItem_blob.mem_walkTree hwalk).mp hmem
    exact ⟨dir, e, bytes, ext, hbelow, hfile, hname,
      (isLfs_iff hwalk hmatcher dir e.name).mp hlfs, hblob, hparse⟩
  · rintro ⟨dir, e, bytes, ext, hbelow, hfile, hname, htracked, hblob, hparse⟩
    exact ⟨_, (repo.isItem_blob.mem_walkTree hwalk).mpr ⟨dir, e, hbelow, hfile, hname, rfl⟩,
      (isLfs_iff hwalk hmatcher dir e.name).mpr htracked, bytes, ext, hblob, hparse⟩

/-! ### When the search returns -/

variable (repo) in
/-- The tree is at most so many directories deep, and its trees and files can be read. -/
def Readable : (depth : ℕ) → GitOid → Prop
  | 0, _ => False
  | depth + 1, oid => ∃ entries, repo.trees.lookup oid = some entries ∧
      ∀ e ∈ entries, (e.mode = .tree → Readable depth e.oid) ∧
        (isFile e = true → (repo.readBlob e.oid).isSome)

theorem Readable.below {depth : ℕ} {treeOid : GitOid} {dir : Dir} {e : TreeEntry}
    (h : repo.Readable depth treeOid) (hbelow : Below repo.trees treeOid dir e)
    (hfile : isFile e = true) : (repo.readBlob e.oid).isSome := by
  induction hbelow generalizing depth with
  | here hoid he =>
    rcases depth with _ | depth
    · exact absurd h id
    · obtain ⟨entries, hoid', hentries⟩ := h
      obtain rfl := Option.some.inj (hoid.symm.trans hoid')
      exact (hentries _ he).2 hfile
  | under hoid hd hmode _ ih =>
    rcases depth with _ | depth
    · exact absurd h id
    · obtain ⟨entries, hoid', hentries⟩ := h
      obtain rfl := Option.some.inj (hoid.symm.trans hoid')
      exact ih ((hentries _ hd).1 hmode) hfile

theorem Readable.exists_walkTree {treeOid : GitOid} (h : repo.Readable fuel treeOid) (pre : Bytes) :
    ∃ listing, repo.walkTree fuel treeOid pre = .ok listing := by
  induction fuel generalizing treeOid pre with
  | zero => exact absurd h id
  | succ fuel ih =>
    obtain ⟨entries, hoid, hentries⟩ := h
    have hparts : ∀ e ∈ entries, ∃ part,
        repo.walkEntry (repo.walkTree fuel) pre e = .ok part := by
      intro e he
      rw [walkEntry]
      split_ifs with hmode hfile hname
      · exact ih ((hentries e he).1 hmode) _
      · obtain ⟨bytes, hbytes⟩ := Option.isSome_iff_exists.mp ((hentries e he).2 hfile)
        exact ⟨_, by rw [hbytes]; rfl⟩
      · exact ⟨_, rfl⟩
      · exact ⟨_, rfl⟩
    obtain ⟨parts, hparts⟩ := ExceptRun.exists_mapM hparts
    exact ⟨_, by rw [walkTree, hoid]; dsimp only; rw [hparts]; rfl⟩

variable (repo globs) in
/-- The `.gitattributes` files of a tree have no negated patterns. -/
def AttrsParse (treeOid : GitOid) : Prop :=
  ∀ dir e contents, Below repo.trees treeOid dir e → isFile e = true → e.name = gitattributes →
    repo.readBlob e.oid = some contents → ∃ rules, parseRules globs contents (dirBytes dir) = .ok rules

theorem exists_collectFromTree (hread : repo.Readable fuel treeOid)
    (hattrs : repo.AttrsParse globs treeOid) (out : FiniteMap Oid UInt64) :
    ∃ out', repo.collectFromTree globs fuel out treeOid = .ok out' := by
  obtain ⟨⟨blobs, attrs⟩, hwalk⟩ := hread.exists_walkTree []
  rw [collectFromTree, hwalk]
  by_cases hempty : attrs.isEmpty = true
  · exact ⟨out, if_pos hempty⟩
  have hfiles : ∀ entry ∈ attrs, ∃ file, parseEntry globs entry = .ok file := by
    rintro ⟨dir, contents⟩ hentry
    obtain ⟨dirs, e, hbelow, hfile, hname, hdir, hblob⟩ :=
      (repo.isItem_attrs.mem_walkTree hwalk).mp hentry
    obtain ⟨rules, hrules⟩ := hattrs dirs e contents hbelow hfile hname hblob
    rw [List.nil_append] at hdir
    subst hdir
    exact ⟨⟨_, rules⟩, parseEntry_eq_ok.mpr ⟨hrules, rfl⟩⟩
  obtain ⟨files, hfiles⟩ := ExceptRun.exists_mapM hfiles
  obtain ⟨matcher, hmatcher⟩ : ∃ matcher, AttrsMatcher.fromEntries globs attrs = .ok matcher :=
    ⟨_, by rw [AttrsMatcher.fromEntries, hfiles]; rfl⟩
  have hstep : ∀ file ∈ blobs, ∀ s, ∃ s', repo.collectBlob globs matcher s file = .ok s' := by
    intro file hfile s
    obtain ⟨dir, e, hbelow, hisFile, -, rfl⟩ := (repo.isItem_blob.mem_walkTree hwalk).mp hfile
    obtain ⟨bytes, hbytes⟩ := Option.isSome_iff_exists.mp (hread.below hbelow hisFile)
    rw [collectBlob, hbytes]
    split_ifs with hlfs
    · exact ⟨s, rfl⟩
    · dsimp only
      split_ifs with hlooks
      · exact ⟨s, rfl⟩
      · rcases Pointer.parse bytes with e | pointer
        · exact ⟨s, rfl⟩
        · exact ⟨_, rfl⟩
  obtain ⟨out', hout'⟩ := ExceptRun.exists_foldlM hstep out
  refine ⟨out', (if_neg hempty).trans ?_⟩
  rw [hmatcher]
  exact hout'

end Objects

end TreeRepo

end Maw.Lfs
