import Maw.Core.Types
import Maw.Library.ExceptRun
import Maw.Library.SortedPrefix
import Mathlib.Data.List.Sort

/-!
# Writing a flat tree as tree objects

A flat map from paths to files is written directory by directory, the deepest first, each as a
tree object with its files and the objects of its subdirectories, in the order of git: by the
bytes of the names, a directory as if its name ended in `/`. Reading the root object recursively
gives the flat map.

## Main definitions

* `gitTreeEntryCmp` — the order of the entries.
* `buildDirs`, `buildTree` — the tree objects of a flat map.
* `walkTree` — the flat map below a tree object.

## Main results

* `gitTreeEntryCmp_ne_gt` — the order is that of the names with their slashes.
* `buildTree_exact` — reading gives back what was written, and all objects are in order.
-/

open PrefixOrder

namespace Maw.WriteTree

/-- An entry of a tree object. -/
structure TreeEntry where
  name : Component
  mode : EntryMode
  oid : GitOid
  deriving DecidableEq

/-! ### The order of the entries -/

section Order

/-- The bytes of a name. -/
def nameBytes (c : Component) : List ℕ :=
  (c.text.toList.flatMap String.utf8EncodeChar).map UInt8.toNat

/-- The byte `/`. -/
def slash : ℕ := 0x2F

/-- The byte that comes next in a name; that of a directory ends in a slash. -/
def nextByte (bytes : List ℕ) (isTree : Bool) : Option ℕ :=
  match bytes with
  | b :: _ => some b
  | [] => if isTree then some slash else none

def nextCmp : Option ℕ → Option ℕ → Ordering
  | none, none => .eq
  | none, some _ => .lt
  | some _, none => .gt
  | some a, some b => compare a b

/-- Compare two names at the first byte in which they differ. -/
def compareNames : (a b : List ℕ) → (aIsTree bIsTree : Bool) → Ordering
  | x :: a, y :: b, aIsTree, bIsTree =>
    if x ≠ y then compare x y else compareNames a b aIsTree bIsTree
  | a, b, aIsTree, bIsTree => nextCmp (nextByte a aIsTree) (nextByte b bIsTree)

def gitTreeEntryCmp (a b : TreeEntry) : Ordering :=
  compareNames (nameBytes a.name) (nameBytes b.name) (a.mode = .tree) (b.mode = .tree)

/-- What follows the name of a directory. -/
def ending (isTree : Bool) : List ℕ := if isTree then [slash] else []

/-- The bytes of a name, with the slash of a directory. -/
def sortKey (e : TreeEntry) : List ℕ := nameBytes e.name ++ ending (e.mode = .tree)

theorem nil_le (l : List ℕ) : [] ≤ l := not_lt.mp (List.not_lt_nil l)

theorem cons_le_cons {x y : ℕ} {l m : List ℕ} : x :: l ≤ y :: m ↔ x < y ∨ x = y ∧ l ≤ m := by
  rw [← not_lt, ← not_lt, List.cons_lt_cons_iff]
  by_cases hxy : x = y
  · simp [hxy]
  · have hne : y ≠ x := Ne.symm hxy
    simp only [hxy, hne, false_and, or_false]
    omega

theorem nameBytes_injective : Function.Injective nameBytes := by
  intro a b h
  have hbytes : a.text.toList.flatMap String.utf8EncodeChar =
      b.text.toList.flatMap String.utf8EncodeChar :=
    List.map_injective_iff.mpr (fun _ _ => UInt8.toNat_inj.mp) h
  have htext : a.text = b.text := by
    rw [← String.toByteArray_inj]
    have hencode (s : String) : s.toByteArray =
        (s.toList.flatMap String.utf8EncodeChar).toByteArray := by
      rw [← List.utf8Encode, String.utf8Encode_toList]
    rw [hencode, hencode, hbytes]
  cases a
  cases b
  congr

/-- The only character with the byte of a slash is the slash. -/
theorem slash_notMem_utf8EncodeChar {c : Char} (hc : c ≠ '/') :
    slash ∉ (String.utf8EncodeChar c).map UInt8.toNat := by
  have hval : c.val.toNat ≠ 0x2F := fun h => hc (Char.ext (UInt32.toNat_inj.mp h))
  rw [String.utf8EncodeChar, slash]
  split_ifs with hone htwo hthree
  · rw [List.map_singleton, List.mem_singleton, UInt8.toNat_ofNat']
    omega
  all_goals
    simp only [List.map_cons, List.map_nil, List.mem_cons, List.not_mem_nil, or_false,
      UInt8.toNat_ofNat']
    omega

theorem slash_notMem_nameBytes (c : Component) : slash ∉ nameBytes c := by
  rw [nameBytes, List.map_flatMap, List.mem_flatMap]
  rintro ⟨char, hchar, hmem⟩
  exact slash_notMem_utf8EncodeChar (fun h => c.isName.2 (h ▸ hchar)) hmem

/-- Names that have no slash compare as they do with the slashes of directories. -/
theorem compareNames_ne_gt {a b : List ℕ} {aIsTree bIsTree : Bool} (ha : slash ∉ a)
    (hb : slash ∉ b) : compareNames a b aIsTree bIsTree ≠ .gt ↔
      a ++ ending aIsTree ≤ b ++ ending bIsTree := by
  induction a generalizing b with
  | nil =>
    cases b with
    | nil => cases aIsTree <;> cases bIsTree <;> decide
    | cons y b =>
      have hy : slash ≠ y := fun h => hb (h ▸ List.mem_cons_self)
      cases aIsTree with
      | false => exact iff_of_true (by simp [compareNames, nextByte, nextCmp]) (nil_le _)
      | true =>
        have hcmp : compareNames [] (y :: b) true bIsTree = compare slash y := rfl
        have hkey : ([] : List ℕ) ++ ending true = [slash] := rfl
        rw [hcmp, compare_le_iff_le, hkey, List.cons_append, cons_le_cons]
        constructor
        · exact fun h => Or.inl (lt_of_le_of_ne h hy)
        · rintro (h | ⟨h, -⟩)
          · exact h.le
          · exact absurd h hy
  | cons x a ih =>
    have hx : x ≠ slash := fun h => ha (h ▸ List.mem_cons_self)
    cases b with
    | nil =>
      cases bIsTree with
      | false => simp [compareNames, nextByte, nextCmp, ending]
      | true =>
        have hcmp : compareNames (x :: a) [] aIsTree true = compare x slash := rfl
        have hkey : ([] : List ℕ) ++ ending true = [slash] := rfl
        rw [hcmp, compare_le_iff_le, hkey, List.cons_append, cons_le_cons]
        constructor
        · exact fun h => Or.inl (lt_of_le_of_ne h hx)
        · rintro (h | ⟨h, -⟩)
          · exact h.le
          · exact absurd h hx
    | cons y b =>
      rw [List.cons_append, List.cons_append, cons_le_cons, compareNames]
      split_ifs with hxy
      · rw [compare_le_iff_le]
        constructor
        · exact fun h => Or.inl (lt_of_le_of_ne h hxy)
        · rintro (h | ⟨h, -⟩)
          · exact h.le
          · exact absurd h hxy
      · obtain rfl := not_not.mp hxy
        rw [ih (fun h => ha (List.mem_cons_of_mem x h)) fun h => hb (List.mem_cons_of_mem x h)]
        simp

theorem gitTreeEntryCmp_ne_gt {a b : TreeEntry} :
    gitTreeEntryCmp a b ≠ .gt ↔ sortKey a ≤ sortKey b := by
  rw [gitTreeEntryCmp, compareNames_ne_gt (slash_notMem_nameBytes _) (slash_notMem_nameBytes _)]
  rfl

example : gitTreeEntryCmp ⟨.lit "assurance", .tree, ⟨0⟩⟩ ⟨.lit "assurance-plan.md", .blob, ⟨0⟩⟩ =
    .gt := by decide +kernel

theorem mergeSort_pairwise {α κ : Type} [LinearOrder κ] (key : α → κ) (l : List α) :
    (l.mergeSort fun a b => key a ≤ key b).Pairwise fun a b => key a ≤ key b := by
  have hsorted : (l.mergeSort fun a b => key a ≤ key b).Pairwise
      fun a b => decide (key a ≤ key b) = true := by
    refine List.pairwise_mergeSort (fun a b c hab hbc => ?_) (fun a b => ?_) l
    · rw [decide_eq_true_iff] at hab hbc ⊢
      exact hab.trans hbc
    · rw [Bool.or_eq_true, decide_eq_true_iff, decide_eq_true_iff]
      exact le_total _ _
  exact hsorted.imp of_decide_eq_true

/-- The entries in the order of git. -/
def sortEntries (entries : List TreeEntry) : List TreeEntry :=
  entries.mergeSort fun a b => gitTreeEntryCmp a b ≠ .gt

theorem sortEntries_pairwise (entries : List TreeEntry) :
    (sortEntries entries).Pairwise fun a b => sortKey a ≤ sortKey b := by
  have hle : (fun a b : TreeEntry => decide (gitTreeEntryCmp a b ≠ .gt)) =
      fun a b => decide (sortKey a ≤ sortKey b) := by
    funext a b
    exact decide_eq_decide.mpr gitTreeEntryCmp_ne_gt
  rw [sortEntries, hle]
  exact mergeSort_pairwise sortKey entries

/-- The backend finds the entries in order. -/
theorem mergeSort_sortEntries (entries : List TreeEntry) :
    (sortEntries entries).mergeSort (fun a b => sortKey a ≤ sortKey b) = sortEntries entries :=
  List.mergeSort_of_pairwise ((sortEntries_pairwise entries).imp decide_eq_true)

/-- Two entries with other names have other keys. -/
theorem sortKey_ne {a b : TreeEntry} (h : a.name ≠ b.name) : sortKey a ≠ sortKey b := by
  intro hkey
  refine h (nameBytes_injective ?_)
  have hends (c : Component) (l : List ℕ) (hl : slash ∉ l) (isTree isTree' : Bool)
      (heq : nameBytes c ++ ending isTree = l ++ ending isTree') : nameBytes c = l := by
    have hc := slash_notMem_nameBytes c
    cases isTree <;> cases isTree'
    · simpa [ending] using heq
    · rw [ending, ending, if_neg Bool.false_ne_true, if_pos rfl, List.append_nil] at heq
      exact absurd (heq ▸ List.mem_append_right l List.mem_cons_self) hc
    · rw [ending, ending, if_neg Bool.false_ne_true, if_pos rfl, List.append_nil] at heq
      exact absurd (heq ▸ List.mem_append_right _ List.mem_cons_self) hl
    · exact List.append_cancel_right heq
  exact hends _ _ (slash_notMem_nameBytes _) _ _ hkey

end Order

/-! ### Writing and reading -/

section Trees

/-- A directory, from the root on. -/
abbrev Dir := List Component

/-- A flat tree: files at paths of proper names, none below another one. The names `.` and `..`
stand for no entry of a tree, and the last name of such a path is not its file name. -/
structure FlatTree where
  entries : GitTree
  prefixFree : TreePrefixFree entries
  proper : ∀ p ∈ entries, ∀ c ∈ p.components, c.text ≠ "." ∧ c.text ≠ ".."
  files : ∀ p e, entries.lookup p = some e → e.mode ≠ .tree

/-- The stored tree objects. -/
abbrev TreeStore := FiniteMap GitOid (List TreeEntry)

abbrev TreeOids := FiniteMap Dir GitOid

/-- The hash of git, and the writes that fail. -/
structure TreeEnv where
  hash : List TreeEntry → GitOid
  writeFails : List TreeEntry → Bool

/-- The order in which a hash map is read. -/
structure MapOrder where
  list : TreeOids → List (Dir × GitOid)
  nodup : ∀ m, ((list m).map Prod.fst).Nodup
  mem_list : ∀ m dir oid, (dir, oid) ∈ list m ↔ m.lookup dir = some oid

inductive TreeError
  | writeTree (dir : Dir)
  | readTree (oid : GitOid)
  | noRoot
  deriving DecidableEq

instance : LinearOrder Component :=
  LinearOrder.lift' (fun c => c.text.toList) Component.toList_injective

def MapOrder.sorted : MapOrder where
  list m := m.sortedEntries
  nodup m := m.nodup_sortedEntries
  mem_list _ _ _ := FiniteMap.mem_sortedEntries

/-- Store a tree object. The backend puts the entries in order once more; an id that stands for
other entries is refused. -/
def writeTree (env : TreeEnv) (dir : Dir) (store : TreeStore) (entries : List TreeEntry) :
    Except TreeError (GitOid × TreeStore) :=
  let tree := entries.mergeSort fun a b => sortKey a ≤ sortKey b
  if env.writeFails tree then throw (.writeTree dir)
  else
    match store.lookup (env.hash tree) with
    | some stored => if stored = tree then pure (env.hash tree, store) else throw (.writeTree dir)
    | none => pure (env.hash tree, store.insert (env.hash tree) tree)

/-- Add the parents of a path, up to one that is listed. -/
def addParents : List Dir → List Dir → List Dir
  | dirs, [] => dirs
  | dirs, current :: rest =>
    if current = [] ∨ current ∈ dirs then dirs else addParents (dirs ++ [current]) rest

/-- The root and the parents of all paths. -/
def allDirs (flat : GitTree) : List Dir :=
  flat.sortedKeys.foldl (fun dirs p => addParents dirs (strictPrefixes p.components)) [[]]

/-- The deepest directories come first. -/
def deepestFirst (a b : Dir) : Bool := b.length < a.length || (b.length = a.length && a ≤ b)

/-- The mode of an entry; what is no mode of a file is that of a regular one. -/
def blobMode : EntryMode → EntryMode
  | .blobExecutable => .blobExecutable
  | .link => .link
  | .commit => .commit
  | _ => .blob

/-- The entry of a path that is directly in a directory, under its last name. -/
def entryIn (dir path : Dir) (mode : EntryMode) (oid : GitOid) : Option TreeEntry :=
  if path.dropLast = dir then path.getLast?.map fun name => ⟨name, mode, oid⟩ else none

/-- The files directly in a directory. -/
def blobEntries (flat : GitTree) (dir : Dir) : List TreeEntry :=
  flat.sortedEntries.filterMap fun x => entryIn dir x.1.components (blobMode x.2.mode) x.2.oid

/-- The directories directly in a directory. The root itself is written last. -/
def treeEntries (order : MapOrder) (treeOids : TreeOids) (dir : Dir) : List TreeEntry :=
  (order.list treeOids).filterMap fun x => entryIn dir x.1 .tree x.2

/-- Write one directory. -/
def buildDir (env : TreeEnv) (order : MapOrder) (flat : GitTree) (state : TreeOids × TreeStore)
    (dir : Dir) : Except TreeError (TreeOids × TreeStore) := do
  let entries := blobEntries flat dir ++ treeEntries order state.1 dir
  let (oid, store) ← writeTree env dir state.2 (sortEntries entries)
  pure (state.1.insert dir oid, store)

/-- Write all directories. -/
def buildDirs (env : TreeEnv) (order : MapOrder) (flat : GitTree) (store : TreeStore) :
    Except TreeError (TreeOids × TreeStore) :=
  ((allDirs flat).mergeSort deepestFirst).foldlM (buildDir env order flat) (∅, store)

/-- Write a flat tree; the id of its root object is returned. -/
def buildTree (env : TreeEnv) (order : MapOrder) (flat : GitTree) (store : TreeStore) :
    Except TreeError (GitOid × TreeStore) := do
  let (treeOids, store) ← buildDirs env order flat store
  match treeOids.lookup [] with
  | some root => pure (root, store)
  | none => throw .noRoot

/-- A path in a directory. -/
def childPath (dir : Dir) (name : Component) : Path := ⟨dir ++ [name], by simp⟩

/-- Read the files below a tree object into a flat map. -/
def walkTree (store : TreeStore) : ℕ → GitOid → Dir → GitTree → Except TreeError GitTree
  | 0, oid, _, _ => throw (.readTree oid)
  | fuel + 1, oid, dir, flat =>
    match store.lookup oid with
    | none => throw (.readTree oid)
    | some entries => entries.foldlM (fun flat e =>
        if e.mode = .tree then walkTree store fuel e.oid (dir ++ [e.name]) flat
        else pure (flat.insert (childPath dir e.name) ⟨e.mode, e.oid⟩)) flat

end Trees

/-! ### The directories of a flat tree -/

section Dirs

variable {flat : GitTree} {dirs : List Dir} {dir : Dir}

/-- A directory above one of the paths, or the root. -/
def IsDir (flat : GitTree) (dir : Dir) : Prop :=
  dir = [] ∨ ∃ p ∈ flat, StrictPrefix dir p.components

/-- With a directory its parents are listed. -/
def ParentsListed (dirs : List Dir) : Prop := ∀ d ∈ dirs, ∀ a ∈ strictPrefixes d, a ∈ dirs

theorem mem_addParents {parents : List Dir}
    (hchain : parents.Pairwise fun a b => b ∈ strictPrefixes a) (hne : ∀ a ∈ parents, a ≠ [])
    (hlisted : ∀ d ∈ dirs, d ∈ parents → ∀ a ∈ strictPrefixes d, a ∈ dirs) :
    dir ∈ addParents dirs parents ↔ dir ∈ dirs ∨ dir ∈ parents := by
  induction parents generalizing dirs with
  | nil => simp [addParents]
  | cons current rest ih =>
    rw [List.pairwise_cons] at hchain
    rw [addParents]
    split_ifs with hstop
    · refine ⟨Or.inl, ?_⟩
      rintro (hmem | hmem)
      · exact hmem
      · have hcurrent : current ∈ dirs := hstop.resolve_left (hne current List.mem_cons_self)
        rcases List.mem_cons.mp hmem with rfl | hmem
        · exact hcurrent
        · exact hlisted current hcurrent List.mem_cons_self dir (hchain.1 dir hmem)
    · rw [ih hchain.2 fun a ha => hne a (List.mem_cons_of_mem current ha)]
      · simp only [List.mem_append, List.mem_cons, List.not_mem_nil, false_or, or_assoc]
      · intro d hd hrest a ha
        rcases List.mem_append.mp hd with hd | hd
        · exact List.mem_append_left _ (hlisted d hd (List.mem_cons_of_mem current hrest) a ha)
        · -- The one that was just added is longer than the rest.
          obtain rfl := List.mem_singleton.mp hd
          have hself := (mem_strictPrefixes.mp (hchain.1 d hrest)).1
          exact absurd hself (StrictPrefix.irrefl d)

theorem strictPrefixes_chain (d : Dir) :
    (strictPrefixes d).Pairwise fun a b => b ∈ strictPrefixes a := by
  refine List.Pairwise.imp_of_mem ?_ (strictPrefixes_pairwise d)
  intro a b _ hb hab
  exact mem_strictPrefixes.mpr ⟨hab, (mem_strictPrefixes.mp hb).2⟩

theorem mem_allDirs : dir ∈ allDirs flat ↔ IsDir flat dir := by
  have hfold (l : List Path) (dirs : List Dir) (hlisted : ParentsListed dirs) :
      dir ∈ l.foldl (fun dirs p => addParents dirs (strictPrefixes p.components)) dirs ↔
        dir ∈ dirs ∨ ∃ p ∈ l, dir ∈ strictPrefixes p.components := by
    induction l generalizing dirs with
    | nil => simp
    | cons p l ih =>
      have hmem (d : Dir) : d ∈ addParents dirs (strictPrefixes p.components) ↔
          d ∈ dirs ∨ d ∈ strictPrefixes p.components :=
        mem_addParents (strictPrefixes_chain _) (fun a ha => (mem_strictPrefixes.mp ha).2)
          fun d hd _ => hlisted d hd
      have hnext : ParentsListed (addParents dirs (strictPrefixes p.components)) := by
        intro d hd a ha
        rw [hmem] at hd ⊢
        rcases hd with hd | hd
        · exact Or.inl (hlisted d hd a ha)
        · rw [mem_strictPrefixes] at hd ha
          exact Or.inr (mem_strictPrefixes.mpr ⟨ha.1.trans hd.1, ha.2⟩)
      rw [List.foldl_cons, ih _ hnext, hmem]
      simp only [List.mem_cons, exists_eq_or_imp, or_assoc]
  have hroot : ParentsListed [[]] := by
    rintro d hd a ha
    rw [List.mem_singleton.mp hd] at ha
    exact absurd (mem_strictPrefixes.mp ha).1 (not_strictPrefix_nil a)
  rw [allDirs, hfold _ _ hroot, List.mem_singleton, IsDir]
  simp only [FiniteMap.mem_sortedKeys, mem_strictPrefixes]
  constructor
  · rintro (rfl | ⟨p, hp, hprefix, -⟩)
    · exact Or.inl rfl
    · exact Or.inr ⟨p, hp, hprefix⟩
  · rintro (rfl | ⟨p, hp, hprefix⟩)
    · exact Or.inl rfl
    · by_cases hdir : dir = []
      · exact Or.inl hdir
      · exact Or.inr ⟨p, hp, hprefix, hdir⟩

/-- The directories that are written first are not above the others. -/
theorem sortedDirs_pairwise (dirs : List Dir) :
    (dirs.mergeSort deepestFirst).Pairwise fun a b => b.length ≤ a.length := by
  have hsorted : (dirs.mergeSort deepestFirst).Pairwise fun a b => deepestFirst a b = true := by
    refine List.pairwise_mergeSort (fun a b c hab hbc => ?_) (fun a b => ?_) dirs
    · simp only [deepestFirst, Bool.or_eq_true, Bool.and_eq_true, decide_eq_true_iff] at hab hbc ⊢
      rcases hab with hab | ⟨hab, hle⟩
      · exact Or.inl (by omega)
      · rcases hbc with hbc | ⟨hbc, hle'⟩
        · exact Or.inl (by omega)
        · exact Or.inr ⟨by omega, hle.trans hle'⟩
    · simp only [deepestFirst, Bool.or_eq_true, Bool.and_eq_true, decide_eq_true_iff]
      rcases lt_trichotomy a.length b.length with hlt | heq | hlt
      · exact Or.inr (Or.inl hlt)
      · rcases le_total a b with hle | hle
        · exact Or.inl (Or.inr ⟨heq.symm, hle⟩)
        · exact Or.inr (Or.inr ⟨heq, hle⟩)
      · exact Or.inl (Or.inl hlt)
  refine hsorted.imp fun h => ?_
  simp only [deepestFirst, Bool.or_eq_true, Bool.and_eq_true, decide_eq_true_iff] at h
  omega

end Dirs

/-! ### What a tree object stands for -/

section Represents

variable {flat : GitTree} {store store' : TreeStore} {dir : Dir} {oid : GitOid}
  {tree : List TreeEntry} {name : Component}

/-- The entries are in the order of git, and no two have one name. -/
structure IsCanonical (tree : List TreeEntry) : Prop where
  sorted : tree.Pairwise fun a b => sortKey a < sortKey b
  nodup : (tree.map TreeEntry.name).Nodup

/-- The entries are the files directly in a directory and its subdirectories. -/
structure Lists (flat : GitTree) (dir : Dir) (tree : List TreeEntry) : Prop where
  file : ∀ e ∈ tree, e.mode ≠ .tree →
    flat.lookup (childPath dir e.name) = some ⟨e.mode, e.oid⟩
  sub : ∀ e ∈ tree, e.mode = .tree → IsDir flat (dir ++ [e.name])
  exists_file : ∀ name e, flat.lookup (childPath dir name) = some e → ⟨name, e.mode, e.oid⟩ ∈ tree
  exists_sub : ∀ name, IsDir flat (dir ++ [name]) → ∃ e ∈ tree, e.mode = .tree ∧ e.name = name

/-- A tree object stands for the files below a directory. -/
inductive Represents (flat : GitTree) (store : TreeStore) : GitOid → Dir → Prop
  | intro {oid : GitOid} {dir : Dir} {tree : List TreeEntry}
      (hstored : store.lookup oid = some tree) (hlists : Lists flat dir tree)
      (hsub : ∀ e ∈ tree, e.mode = .tree → Represents flat store e.oid (dir ++ [e.name])) :
      Represents flat store oid dir

/-- What is stored stays. -/
def Keeps (store store' : TreeStore) : Prop :=
  ∀ oid tree, store.lookup oid = some tree → store'.lookup oid = some tree

theorem Represents.mono (h : Represents flat store oid dir) (hkeeps : Keeps store store') :
    Represents flat store' oid dir := by
  induction h with
  | intro hstored hlists _ ih => exact .intro (hkeeps _ _ hstored) hlists ih

/-- The entry that a file below a directory comes from. -/
def Covers (dir : Dir) (p : Path) (e : TreeEntry) : Prop :=
  if e.mode = .tree then StrictPrefix (dir ++ [e.name]) p.components
  else p = childPath dir e.name

instance (dir : Dir) (p : Path) (e : TreeEntry) : Decidable (Covers dir p e) :=
  inferInstanceAs (Decidable (ite _ _ _))

/-- The files below a directory are covered by its entries. -/
theorem exists_covers_iff (hfiles : ∀ p e, flat.lookup p = some e → e.mode ≠ .tree)
    (h : Lists flat dir tree) {p : Path} (hp : p ∈ flat) :
    (∃ e ∈ tree, Covers dir p e) ↔ StrictPrefix dir p.components := by
  constructor
  · rintro ⟨e, -, he⟩
    have hchild : StrictPrefix dir (dir ++ [e.name]) :=
      strictPrefix_iff_length.mpr ⟨List.prefix_append _ _, by simp⟩
    rw [Covers] at he
    split_ifs at he
    · exact hchild.trans he
    · rw [he]
      exact hchild
  · intro hprefix
    obtain ⟨rest, hrest⟩ := hprefix.1
    cases rest with
    | nil => exact absurd (by simpa using hrest) hprefix.2
    | cons name rest =>
      cases rest with
      | nil =>
        have hchild : p = childPath dir name := Path.ext_components hrest.symm
        obtain ⟨e, he⟩ := Finmap.mem_iff.mp hp
        rw [hchild] at he
        refine ⟨_, h.exists_file name e he, ?_⟩
        rw [Covers, if_neg (hfiles _ _ he)]
        exact hchild
      | cons name' rest =>
        have hsub : StrictPrefix (dir ++ [name]) p.components := by
          rw [strictPrefix_iff_length, ← hrest]
          exact ⟨⟨name' :: rest, by simp⟩, by simp⟩
        obtain ⟨e, he, hmode, rfl⟩ := h.exists_sub name (Or.inr ⟨p, hp, hsub⟩)
        exact ⟨e, he, by rwa [Covers, if_pos hmode]⟩

/-- The files below some entries are put over a flat map. -/
theorem exists_foldlM_walk {n : ℕ} (hlists : Lists flat dir tree)
    (hsub : ∀ e ∈ tree, e.mode = .tree → ∀ acc, ∃ r,
      walkTree store n e.oid (dir ++ [e.name]) acc = .ok r ∧ ∀ p, r.lookup p =
        if StrictPrefix (dir ++ [e.name]) p.components ∧ p ∈ flat then flat.lookup p
        else acc.lookup p) (entries : List TreeEntry) (hentries : entries ⊆ tree) (acc : GitTree) :
    ∃ r, entries.foldlM (fun flat e =>
        if e.mode = .tree then walkTree store n e.oid (dir ++ [e.name]) flat
        else pure (flat.insert (childPath dir e.name) ⟨e.mode, e.oid⟩)) acc = .ok r ∧
      ∀ p, r.lookup p = if (∃ e ∈ entries, Covers dir p e) ∧ p ∈ flat then flat.lookup p
        else acc.lookup p := by
  induction entries generalizing acc with
  | nil => exact ⟨acc, rfl, fun p => by simp⟩
  | cons e entries ih =>
    obtain ⟨he, hrest⟩ := List.cons_subset.mp hentries
    have hstep : ∃ acc', (if e.mode = .tree then walkTree store n e.oid (dir ++ [e.name]) acc
        else pure (acc.insert (childPath dir e.name) ⟨e.mode, e.oid⟩)) = .ok acc' ∧
        ∀ p, acc'.lookup p = if Covers dir p e ∧ p ∈ flat then flat.lookup p
          else acc.lookup p := by
      by_cases hmode : e.mode = .tree
      · simp only [Covers, if_pos hmode]
        exact hsub e he hmode acc
      · simp only [Covers, if_neg hmode]
        refine ⟨_, rfl, fun p => ?_⟩
        rw [FiniteMap.lookup_insert]
        have hfile := hlists.file e he hmode
        by_cases hp : p = childPath dir e.name
        · rw [if_pos hp, if_pos ⟨hp, hp ▸ FiniteMap.mem_of_lookup hfile⟩, hp, hfile]
        · rw [if_neg hp, if_neg fun h => hp h.1]
    obtain ⟨acc', hacc', hlookup'⟩ := hstep
    obtain ⟨r, hr, hlookup⟩ := ih hrest acc'
    refine ⟨r, ?_, fun p => ?_⟩
    · rw [List.foldlM_cons, hacc']
      exact hr
    · rw [hlookup, hlookup']
      by_cases hp : p ∈ flat
      · by_cases hcovers : Covers dir p e
        · simp [hp, hcovers]
        · simp [hp, hcovers]
      · simp [hp]

/-- With enough fuel all that is below a tree object is read. -/
theorem exists_walkTree (hfiles : ∀ p e, flat.lookup p = some e → e.mode ≠ .tree)
    (h : Represents flat store oid dir) : ∃ n, ∀ fuel ≥ n, ∀ acc, ∃ r,
      walkTree store fuel oid dir acc = .ok r ∧ ∀ p, r.lookup p =
        if StrictPrefix dir p.components ∧ p ∈ flat then flat.lookup p else acc.lookup p := by
  induction h with
  | @intro oid dir tree hstored hlists _ ih =>
    have hbound (entries : List TreeEntry) (hentries : entries ⊆ tree) : ∃ n, ∀ fuel ≥ n,
        ∀ e ∈ entries, e.mode = .tree → ∀ acc, ∃ r,
          walkTree store fuel e.oid (dir ++ [e.name]) acc = .ok r ∧ ∀ p, r.lookup p =
            if StrictPrefix (dir ++ [e.name]) p.components ∧ p ∈ flat then flat.lookup p
            else acc.lookup p := by
      induction entries with
      | nil => exact ⟨0, fun _ _ _ he => absurd he List.not_mem_nil⟩
      | cons e entries ihe =>
        obtain ⟨he, hrest⟩ := List.cons_subset.mp hentries
        obtain ⟨n, hn⟩ := ihe hrest
        by_cases hmode : e.mode = .tree
        · obtain ⟨m, hm⟩ := ih e he hmode
          refine ⟨max n m, fun fuel hfuel e' he' hmode' => ?_⟩
          rcases List.mem_cons.mp he' with rfl | he'
          · exact hm fuel (le_of_max_le_right hfuel)
          · exact hn fuel (le_of_max_le_left hfuel) e' he' hmode'
        · refine ⟨n, fun fuel hfuel e' he' hmode' => ?_⟩
          rcases List.mem_cons.mp he' with rfl | he'
          · exact absurd hmode' hmode
          · exact hn fuel hfuel e' he' hmode'
    obtain ⟨n, hn⟩ := hbound tree (List.Subset.refl tree)
    refine ⟨n + 1, fun fuel hfuel acc => ?_⟩
    obtain ⟨fuel, rfl⟩ := Nat.exists_eq_add_of_le' (Nat.le_of_add_left_le hfuel)
    have hfuel' : fuel ≥ n := by omega
    obtain ⟨r, hr, hlookup⟩ := exists_foldlM_walk hlists (hn fuel hfuel') tree
      (List.Subset.refl tree) acc
    refine ⟨r, ?_, fun p => ?_⟩
    · rw [walkTree, hstored]
      exact hr
    · rw [hlookup]
      refine if_congr ?_ rfl rfl
      exact and_congr_left fun hp => exists_covers_iff hfiles hlists hp

end Represents

/-! ### What is written -/

section Written

variable {env : TreeEnv} {order : MapOrder} {flat : GitTree} {treeOids : TreeOids} {dir : Dir}
  {e : TreeEntry}

theorem blobMode_eq {mode : EntryMode} (h : mode ≠ .tree) : blobMode mode = mode := by
  cases mode with
  | tree => exact absurd rfl h
  | _ => rfl

theorem entryIn_eq_some {path : Dir} {mode : EntryMode} {oid : GitOid} :
    entryIn dir path mode oid = some e ↔ path = dir ++ [e.name] ∧ mode = e.mode ∧ oid = e.oid := by
  rw [entryIn]
  constructor
  · intro h
    split_ifs at h with hdir
    obtain ⟨name, hlast, rfl⟩ := Option.map_eq_some_iff.mp h
    refine ⟨?_, rfl, rfl⟩
    rw [← hdir]
    exact (List.dropLast_append_getLast? name hlast).symm
  · rintro ⟨rfl, rfl, rfl⟩
    rw [List.dropLast_concat, if_pos rfl, List.getLast?_concat]
    rfl

theorem mem_blobEntries : e ∈ blobEntries flat dir ↔
    ∃ entry, flat.lookup (childPath dir e.name) = some entry ∧ blobMode entry.mode = e.mode ∧
      entry.oid = e.oid := by
  rw [blobEntries, List.mem_filterMap]
  constructor
  · rintro ⟨⟨p, entry⟩, hmem, hfile⟩
    obtain ⟨hpath, hmode, hoid⟩ := entryIn_eq_some.mp hfile
    have hp : p = childPath dir e.name := Path.ext_components hpath
    exact ⟨entry, hp ▸ FiniteMap.mem_sortedEntries.mp hmem, hmode, hoid⟩
  · rintro ⟨entry, hentry, hmode, hoid⟩
    exact ⟨(childPath dir e.name, entry), FiniteMap.mem_sortedEntries.mpr hentry,
      entryIn_eq_some.mpr ⟨rfl, hmode, hoid⟩⟩

theorem mem_treeEntries : e ∈ treeEntries order treeOids dir ↔
    e.mode = .tree ∧ treeOids.lookup (dir ++ [e.name]) = some e.oid := by
  rw [treeEntries, List.mem_filterMap]
  constructor
  · rintro ⟨⟨d, oid⟩, hmem, hsub⟩
    obtain ⟨rfl, hmode, rfl⟩ := entryIn_eq_some.mp hsub
    exact ⟨hmode.symm, (order.mem_list _ _ _).mp hmem⟩
  · rintro ⟨hmode, hoid⟩
    exact ⟨(dir ++ [e.name], e.oid), (order.mem_list _ _ _).mpr hoid,
      entryIn_eq_some.mpr ⟨rfl, hmode.symm, rfl⟩⟩

/-- The entries of different paths have different names. -/
theorem nodup_entryIn {β : Type} {path : β → Dir} {mode : β → EntryMode} {oid : β → GitOid}
    {l : List β} (hnodup : (l.map path).Nodup) :
    ((l.filterMap fun x => entryIn dir (path x) (mode x) (oid x)).map TreeEntry.name).Nodup := by
  rw [List.Nodup, List.pairwise_map] at hnodup ⊢
  rw [List.pairwise_filterMap]
  refine hnodup.imp fun {x y} hne a ha b hb hname => hne ?_
  rw [(entryIn_eq_some.mp ha).1, (entryIn_eq_some.mp hb).1, hname]

theorem nodup_blobEntries (flat : GitTree) (dir : Dir) :
    ((blobEntries flat dir).map TreeEntry.name).Nodup := by
  refine nodup_entryIn ?_
  have hnodup := flat.nodup_sortedEntries
  rw [List.Nodup, List.pairwise_map] at hnodup ⊢
  exact hnodup.imp fun hne heq => hne (Path.ext_components heq)

theorem nodup_treeEntries (order : MapOrder) (treeOids : TreeOids) (dir : Dir) :
    ((treeEntries order treeOids dir).map TreeEntry.name).Nodup :=
  nodup_entryIn (order.nodup treeOids)

/-- No file is a directory. -/
theorem not_isDir_of_mem (hfree : TreePrefixFree flat) {name : Component}
    (h : childPath dir name ∈ flat) : ¬ IsDir flat (dir ++ [name]) := by
  rintro (hnil | ⟨p, hp, hprefix⟩)
  · exact absurd hnil (by simp)
  · refine hfree (childPath dir name) ?_ p ?_ hprefix
    · exact fun hnone => Finmap.lookup_eq_none.mp hnone h
    · exact fun hnone => Finmap.lookup_eq_none.mp hnone hp

variable {tree : List TreeEntry}

/-- The entries of a directory whose subdirectories are written. -/
theorem lists_entries (hfiles : ∀ p e, flat.lookup p = some e → e.mode ≠ .tree)
    (hdirs : ∀ d oid, treeOids.lookup d = some oid → IsDir flat d)
    (hwritten : ∀ name, IsDir flat (dir ++ [name]) → treeOids.lookup (dir ++ [name]) ≠ none)
    (hmem : ∀ e, e ∈ tree ↔ e ∈ blobEntries flat dir ∨ e ∈ treeEntries order treeOids dir) :
    Lists flat dir tree where
  file e he hmode := by
    rcases (hmem e).mp he with hblob | hsub
    · obtain ⟨entry, hentry, hmode', hoid⟩ := mem_blobEntries.mp hblob
      rw [blobMode_eq (hfiles _ _ hentry)] at hmode'
      rw [hentry, ← hmode', ← hoid]
    · exact absurd (mem_treeEntries.mp hsub).1 hmode
  sub e he hmode := by
    rcases (hmem e).mp he with hblob | hsub
    · obtain ⟨entry, hentry, hmode', -⟩ := mem_blobEntries.mp hblob
      rw [blobMode_eq (hfiles _ _ hentry), hmode] at hmode'
      exact absurd hmode' (hfiles _ _ hentry)
    · exact hdirs _ _ (mem_treeEntries.mp hsub).2
  exists_file name entry hentry := by
    refine (hmem _).mpr (Or.inl (mem_blobEntries.mpr ⟨entry, hentry, ?_, rfl⟩))
    exact blobMode_eq (hfiles _ _ hentry)
  exists_sub name hdir := by
    obtain ⟨oid, hoid⟩ := Option.ne_none_iff_exists'.mp (hwritten name hdir)
    exact ⟨⟨name, .tree, oid⟩, (hmem _).mpr (Or.inr (mem_treeEntries.mpr ⟨rfl, hoid⟩)), rfl, rfl⟩

/-- The entries of a directory have different names. -/
theorem nodup_entries (hfree : TreePrefixFree flat)
    (hdirs : ∀ d oid, treeOids.lookup d = some oid → IsDir flat d) :
    ((blobEntries flat dir ++ treeEntries order treeOids dir).map TreeEntry.name).Nodup := by
  rw [List.map_append]
  refine (nodup_blobEntries flat dir).append (nodup_treeEntries order treeOids dir) ?_
  intro name hblob hsub
  obtain ⟨e, he, rfl⟩ := List.mem_map.mp hblob
  obtain ⟨e', he', hname⟩ := List.mem_map.mp hsub
  obtain ⟨entry, hentry, -⟩ := mem_blobEntries.mp he
  refine not_isDir_of_mem hfree (FiniteMap.mem_of_lookup hentry) ?_
  rw [← hname]
  exact hdirs _ _ (mem_treeEntries.mp he').2

end Written

/-! ### All directories are written -/

section Runs

variable {env : TreeEnv} {order : MapOrder} {flat : GitTree} {store store' : TreeStore} {dir : Dir}
  {oid : GitOid} {entries : List TreeEntry} {state state' : TreeOids × TreeStore}

/-- A stored object has the entries, in the order of git. -/
theorem writeTree_eq_ok (h : writeTree env dir store entries = .ok (oid, store')) :
    Keeps store store' ∧
      store'.lookup oid = some (entries.mergeSort fun a b => sortKey a ≤ sortKey b) := by
  rw [writeTree] at h
  split_ifs at h with hfails
  cases hstored : store.lookup (env.hash (entries.mergeSort fun a b => sortKey a ≤ sortKey b)) with
  | some stored =>
    rw [hstored] at h
    dsimp only at h
    split_ifs at h with heq
    · obtain ⟨rfl, rfl⟩ := Prod.mk.inj (ExceptRun.pure_eq_ok.mp h)
      exact ⟨fun _ _ hlookup => hlookup, heq ▸ hstored⟩
  | none =>
    rw [hstored] at h
    obtain ⟨rfl, rfl⟩ := Prod.mk.inj (ExceptRun.pure_eq_ok.mp h)
    refine ⟨fun other tree hlookup => ?_, Finmap.lookup_insert _⟩
    rw [FiniteMap.lookup_insert, if_neg, hlookup]
    rintro rfl
    rw [hstored] at hlookup
    cases hlookup

theorem writeTree_eq_error {e : TreeError} (h : writeTree env dir store entries = .error e) :
    e = .writeTree dir := by
  rw [writeTree] at h
  split_ifs at h with hfails
  · exact (Except.error.inj h).symm
  split at h
  · split_ifs at h with heq
    · exact absurd h ExceptRun.pure_ne_error
    · exact (Except.error.inj h).symm
  · exact absurd h ExceptRun.pure_ne_error

/-- Entries with different names are put in the order of git. -/
theorem isCanonical_sortEntries (hnodup : (entries.map TreeEntry.name).Nodup) :
    IsCanonical (sortEntries entries) := by
  have hperm : (sortEntries entries).Perm entries := List.mergeSort_perm _ _
  have hnodup' := (hperm.map TreeEntry.name).nodup_iff.mpr hnodup
  refine ⟨?_, hnodup'⟩
  rw [List.Nodup, List.pairwise_map] at hnodup'
  refine ((sortEntries_pairwise entries).and hnodup').imp fun h => ?_
  exact lt_of_le_of_ne h.1 (sortKey_ne h.2)

/-- What is written so far stands for its directory, and the directories that are left come before
those above. -/
structure DirsRepresented (flat : GitTree) (rest : List Dir) (state : TreeOids × TreeStore) :
    Prop where
  isDir : ∀ d oid, state.1.lookup d = some oid → IsDir flat d
  represents : ∀ d oid, state.1.lookup d = some oid → Represents flat state.2 oid d
  left : ∀ d, IsDir flat d → d ∈ rest ∨ state.1.lookup d ≠ none
  rest_isDir : ∀ d ∈ rest, IsDir flat d
  deepest : rest.Pairwise fun a b => b.length ≤ a.length

/-- What is written so far is exact and in the order of git. -/
structure DirsWritten (flat : GitTree) (rest : List Dir) (state : TreeOids × TreeStore) : Prop
    extends DirsRepresented flat rest state where
  canonical : ∀ d oid, state.1.lookup d = some oid →
    ∃ tree, state.2.lookup oid = some tree ∧ IsCanonical tree

/-- What one more directory adds. -/
theorem buildDir_eq_ok (h : buildDir env order flat state dir = .ok state') : ∃ oid,
    state'.1 = state.1.insert dir oid ∧ Keeps state.2 state'.2 ∧ state'.2.lookup oid =
      some (sortEntries (blobEntries flat dir ++ treeEntries order state.1 dir)) := by
  obtain ⟨⟨oid, store⟩, hwrite, hstate⟩ := ExceptRun.bind_eq_ok.mp h
  obtain rfl := ExceptRun.pure_eq_ok.mp hstate
  obtain ⟨hkeeps, hstored⟩ := writeTree_eq_ok hwrite
  rw [mergeSort_sortEntries] at hstored
  exact ⟨oid, rfl, hkeeps, hstored⟩

/-- One more directory stands for its files. -/
theorem dirsRepresented_step (hfiles : ∀ p e, flat.lookup p = some e → e.mode ≠ .tree)
    {rest : List Dir} (hinv : DirsRepresented flat (dir :: rest) state)
    (h : buildDir env order flat state dir = .ok state') : DirsRepresented flat rest state' := by
  obtain ⟨oid, hoids, hkeeps, hstored⟩ := buildDir_eq_ok h
  have hdeepest := List.pairwise_cons.mp hinv.deepest
  have hchildren (name : Component) (hdir : IsDir flat (dir ++ [name])) :
      state.1.lookup (dir ++ [name]) ≠ none := by
    refine (hinv.left _ hdir).resolve_left fun hmem => ?_
    rcases List.mem_cons.mp hmem with heq | hmem
    · simpa using congrArg List.length heq
    · have hle : (dir ++ [name]).length ≤ dir.length := hdeepest.1 _ hmem
      rw [List.length_append, List.length_singleton] at hle
      omega
  have hmem (e : TreeEntry) :
      e ∈ sortEntries (blobEntries flat dir ++ treeEntries order state.1 dir) ↔
        e ∈ blobEntries flat dir ∨ e ∈ treeEntries order state.1 dir := by
    rw [sortEntries, List.mem_mergeSort, List.mem_append]
  have hlists := lists_entries hfiles hinv.isDir hchildren hmem
  have hrepresents : Represents flat state'.2 oid dir := by
    refine .intro hstored hlists fun e he hmode => ?_
    rcases (hmem e).mp he with hblob | hsub
    · obtain ⟨entry, hentry, hmode', -⟩ := mem_blobEntries.mp hblob
      rw [blobMode_eq (hfiles _ _ hentry), hmode] at hmode'
      exact absurd hmode' (hfiles _ _ hentry)
    · exact (hinv.represents _ _ (mem_treeEntries.mp hsub).2).mono hkeeps
  refine ⟨fun d i hd => ?_, fun d i hd => ?_, fun d hd => ?_,
    fun d hd => hinv.rest_isDir d (List.mem_cons_of_mem dir hd), hdeepest.2⟩
  · rw [hoids, FiniteMap.lookup_insert] at hd
    split_ifs at hd with heq
    · exact heq ▸ hinv.rest_isDir dir List.mem_cons_self
    · exact hinv.isDir d i hd
  · rw [hoids, FiniteMap.lookup_insert] at hd
    split_ifs at hd with heq
    · obtain rfl := Option.some.inj hd
      exact heq ▸ hrepresents
    · exact (hinv.represents d i hd).mono hkeeps
  · rw [hoids, FiniteMap.lookup_insert]
    by_cases heq : d = dir
    · exact Or.inr (by simp [heq])
    · rw [if_neg heq]
      exact (hinv.left d hd).imp (fun hmem => (List.mem_cons.mp hmem).resolve_left heq) id

/-- One more directory is written. -/
theorem dirsWritten_step (hfree : TreePrefixFree flat)
    (hfiles : ∀ p e, flat.lookup p = some e → e.mode ≠ .tree) {rest : List Dir}
    (hinv : DirsWritten flat (dir :: rest) state)
    (h : buildDir env order flat state dir = .ok state') : DirsWritten flat rest state' := by
  refine ⟨dirsRepresented_step hfiles hinv.toDirsRepresented h, fun d i hd => ?_⟩
  obtain ⟨oid, hoids, hkeeps, hstored⟩ := buildDir_eq_ok h
  rw [hoids, FiniteMap.lookup_insert] at hd
  split_ifs at hd with heq
  · obtain rfl := Option.some.inj hd
    exact ⟨_, hstored, isCanonical_sortEntries (nodup_entries hfree hinv.isDir)⟩
  · obtain ⟨tree, htree, hsorted⟩ := hinv.canonical d i hd
    exact ⟨tree, hkeeps _ _ htree, hsorted⟩

theorem dirsRepresented_start (flat : GitTree) (store : TreeStore) :
    DirsRepresented flat ((allDirs flat).mergeSort deepestFirst) (∅, store) where
  isDir d oid hd := absurd hd (by simp)
  represents d oid hd := absurd hd (by simp)
  left d hd := Or.inl (List.mem_mergeSort.mpr (mem_allDirs.mpr hd))
  rest_isDir d hd := mem_allDirs.mp (List.mem_mergeSort.mp hd)
  deepest := sortedDirs_pairwise _

/-- All directories are written. -/
theorem dirsWritten_of_buildDirs (hfree : TreePrefixFree flat)
    (hfiles : ∀ p e, flat.lookup p = some e → e.mode ≠ .tree)
    (h : buildDirs env order flat store = .ok state) : DirsWritten flat [] state := by
  refine ExceptRun.foldlM_induction (DirsWritten flat)
    (fun dir rest s s' hinv hstep => dirsWritten_step hfree hfiles hinv hstep) ?_ h
  exact ⟨dirsRepresented_start flat store, fun d oid hd => absurd hd (by simp)⟩

/-- The root object stands for all files. -/
theorem represents_of_buildTree (hfiles : ∀ p e, flat.lookup p = some e → e.mode ≠ .tree)
    {root : GitOid} (h : buildTree env order flat store = .ok (root, store')) :
    Represents flat store' root [] := by
  obtain ⟨⟨treeOids, store''⟩, hdirs, h⟩ := ExceptRun.bind_eq_ok.mp h
  have hrep : DirsRepresented flat [] (treeOids, store'') :=
    ExceptRun.foldlM_induction (DirsRepresented flat)
      (fun dir rest s s' hinv hstep => dirsRepresented_step hfiles hinv hstep)
      (dirsRepresented_start flat store) hdirs
  dsimp only at h
  cases hroot : treeOids.lookup [] with
  | none =>
    rw [hroot] at h
    cases h
  | some oid =>
    rw [hroot, ExceptRun.pure_eq_ok] at h
    obtain ⟨rfl, rfl⟩ := Prod.mk.inj h
    exact hrep.represents [] oid hroot

/-- Reading all that is below the root gives the flat map back, with enough fuel. -/
theorem walkTree_of_represents (hfiles : ∀ p e, flat.lookup p = some e → e.mode ≠ .tree)
    {root : GitOid} (h : Represents flat store root []) :
    ∃ n, ∀ fuel ≥ n, walkTree store fuel root [] ∅ = .ok flat := by
  obtain ⟨n, hn⟩ := exists_walkTree hfiles h
  refine ⟨n, fun fuel hfuel => ?_⟩
  obtain ⟨r, hr, hlookup⟩ := hn fuel hfuel ∅
  rw [hr]
  refine congrArg Except.ok (Finmap.ext_lookup fun p => ?_)
  have hbelow : StrictPrefix [] p.components :=
    ⟨List.nil_prefix, fun hnil => p.nonempty hnil.symm⟩
  rw [hlookup]
  by_cases hp : p ∈ flat
  · rw [if_pos ⟨hbelow, hp⟩]
  · rw [if_neg fun hand => hp hand.2, Finmap.lookup_eq_none.mpr hp, Finmap.lookup_empty]

theorem foldlM_buildDir_eq_error {e : TreeError} {dirs : List Dir}
    (h : dirs.foldlM (buildDir env order flat) state = .error e) : ∃ d, e = .writeTree d := by
  induction dirs generalizing state with
  | nil => exact absurd h ExceptRun.pure_ne_error
  | cons d dirs ih =>
    rw [List.foldlM_cons, ExceptRun.bind_eq_error] at h
    rcases h with h | ⟨state', -, h⟩
    · rcases ExceptRun.bind_eq_error.mp h with h | ⟨_, -, h⟩
      · exact ⟨d, writeTree_eq_error h⟩
      · exact absurd h ExceptRun.pure_ne_error
    · exact ih h

/-! ### Modes that are no modes of files -/

/-- The flat tree with modes of files only. -/
def fileModes (flat : GitTree) : GitTree :=
  .ofFun flat.keys fun p => (flat.lookup p).map fun e => ⟨blobMode e.mode, e.oid⟩

theorem lookup_fileModes (flat : GitTree) (p : Path) :
    (fileModes flat).lookup p = (flat.lookup p).map fun e => ⟨blobMode e.mode, e.oid⟩ := by
  rw [fileModes, FiniteMap.lookup_ofFun]
  split_ifs with hp
  · rfl
  · rw [Finmap.lookup_eq_none.mpr fun hmem => hp (Finmap.mem_keys.mpr hmem)]
    rfl

theorem blobMode_ne_tree (mode : EntryMode) : blobMode mode ≠ .tree := by
  cases mode <;> decide

theorem fileModes_files {flat : GitTree} (p : Path) (e : MaterializedEntry)
    (h : (fileModes flat).lookup p = some e) : e.mode ≠ .tree := by
  rw [lookup_fileModes] at h
  obtain ⟨entry, -, rfl⟩ := Option.map_eq_some_iff.mp h
  exact blobMode_ne_tree _

theorem sortedKeys_fileModes (flat : GitTree) : (fileModes flat).sortedKeys = flat.sortedKeys := by
  have hkeys : (fileModes flat).keys = flat.keys := by
    ext p
    rw [Finmap.mem_keys, Finmap.mem_keys, ← Finmap.lookup_isSome, ← Finmap.lookup_isSome,
      lookup_fileModes, Option.isSome_map]
  rw [FiniteMap.sortedKeys, FiniteMap.sortedKeys, hkeys]

theorem blobEntries_fileModes (flat : GitTree) (dir : Dir) :
    blobEntries (fileModes flat) dir = blobEntries flat dir := by
  rw [blobEntries, blobEntries, FiniteMap.sortedEntries, FiniteMap.sortedEntries,
    sortedKeys_fileModes, List.filterMap_filterMap, List.filterMap_filterMap]
  refine List.filterMap_congr fun p _ => ?_
  rw [lookup_fileModes]
  cases flat.lookup p with
  | none => rfl
  | some e =>
    have hmode : blobMode (blobMode e.mode) = blobMode e.mode := blobMode_eq (blobMode_ne_tree _)
    simp only [Option.map_some, Option.bind_some, hmode]

/-- Only the modes of files are written. -/
theorem buildTree_fileModes (env : TreeEnv) (order : MapOrder) (flat : GitTree)
    (store : TreeStore) :
    buildTree env order (fileModes flat) store = buildTree env order flat store := by
  have hdir : buildDir env order (fileModes flat) = buildDir env order flat := by
    funext state dir
    rw [buildDir, buildDir, blobEntries_fileModes]
  rw [buildTree, buildTree, buildDirs, buildDirs, allDirs, allDirs, sortedKeys_fileModes, hdir]

end Runs

end Maw.WriteTree
