import Maw.Core.Repo
import Maw.Library.ExceptRun
import Maw.Library.KeyedSort
import Maw.Library.LastMatch
import Maw.Library.Lines
import Maw.Library.PrefixOrder
import Mathlib.Data.List.DropRight

/-!
# Attributes of paths

`.gitattributes` files say which paths are stored as LFS pointers and which driver merges a path.
Each file stands in a directory and holds for the paths below it. Their lines are read into rules;
the matcher tries the rules of the files from the root downwards, and the last rule that matches a
path and mentions the attribute stands. Strings are given by their bytes.

## Main definitions

* `GlobLibrary` — the patterns, which come from a library.
* `parseRules`, `AttrsMatcher.fromEntries` — the rules of files and of directories.
* `AttrsMatcher.isLfs`, `AttrsMatcher.mergeDriver` — the two attributes of a path.
* `Governs` — the rule that has precedence: that of the deepest directory, and there the last one.

## Main results

* `AttrsMatcher.resolve_eq_iff` — the matcher follows the precedence.
* `AttrsMatcher.attributes_exact` — it does so in whatever order the files were found.
-/

open Lines LastMatch PrefixOrder

namespace Maw.Lfs

/-- The library that compiles and matches patterns. -/
structure GlobLibrary (P : Type*) where
  fromBytes : Bytes → Option P
  isNegative : P → Bool
  /-- Whether a path matches, given where its last component begins. -/
  matchesPath : P → (relPath : Bytes) → (basenamePos : Option ℕ) → Bool

inductive FilterDecision
  | setLfs
  | notLfs
  | noChange
  deriving DecidableEq, Repr

inductive MergeDecision
  | set (driver : Bytes)
  | unset
  | noChange
  deriving DecidableEq, Repr

/-- A line of a `.gitattributes` file. -/
structure Rule (P : Type*) where
  pattern : P
  filter : FilterDecision
  merge : MergeDecision
  deriving DecidableEq

/-- A `.gitattributes` file and its directory, which ends in a slash or is empty for the root. -/
structure AttrsFile (P : Type*) where
  dirPrefix : Bytes
  rules : List (Rule P)
  deriving DecidableEq

/-- The files, from the root to the deepest directory. -/
structure AttrsMatcher (P : Type*) where
  files : List (AttrsFile P)
  deriving DecidableEq

inductive AttrsError
  | parse (path : Bytes) (line : ℕ) (message : String)
  deriving DecidableEq, Repr

/-! ### Lines -/

section Parsing

variable {P : Type*} (globs : GlobLibrary P)

def isBlank (b : UInt8) : Bool := b = 0x20 || b = 0x09

/-- A line without blanks in front and without blanks and carriage returns behind. -/
def trimLine (line : Bytes) : Bytes :=
  (line.dropWhile isBlank).rdropWhile fun b => b = 0x0D || isBlank b

/-- The pattern of a line and its attributes. -/
def splitPattern (line : Bytes) : Bytes × Bytes :=
  (line.takeWhile fun b => !isBlank b, (line.dropWhile fun b => !isBlank b).dropWhile isBlank)

/-- The name and the value of an attribute. -/
def splitAttrToken (token : Bytes) : Bytes × Option Bytes :=
  match splitOnce 0x3D token with
  | some (name, value) => (name, some value)
  | none => (token, none)

/-- The name of an attribute without the sign that resets it, and whether it has one. -/
def resetName : Bytes → Bytes × Bool
  | 0x2D :: name | 0x21 :: name => (name, true)
  | name => (name, false)

/-- What the last token with a name gives. -/
def extractDecision {δ : Type*} (name : Bytes) (assign : Option Bytes → δ) (reset noChange : δ)
    (attrs : Bytes) : δ :=
  (attrs.splitOnP isBlank).foldl (fun decision token =>
    if token.isEmpty then decision
    else
      let (attrName, assigned) := splitAttrToken token
      let (nameBytes, isReset) := resetName attrName
      if nameBytes ≠ name then decision
      else if isReset then reset
      else assign assigned) noChange

def filterName : Bytes := "filter".toUTF8.toList

def lfsName : Bytes := "lfs".toUTF8.toList

def mergeName : Bytes := "merge".toUTF8.toList

def textName : Bytes := "text".toUTF8.toList

def extractFilterDecision (attrs : Bytes) : FilterDecision :=
  extractDecision filterName (fun
    | some value => if value = lfsName then .setLfs else .notLfs
    | none => .notLfs) .notLfs .noChange attrs

/-- A driver whose name is not UTF-8 counts as not mentioned. -/
def extractMergeDecision (attrs : Bytes) : MergeDecision :=
  extractDecision mergeName (fun
    | some value => if isUtf8 value then .set value else .noChange
    | none => .set textName) .unset .noChange attrs

def macroPrefix : Bytes := "[attr]".toUTF8.toList

/-- The rule of a line; comments, macros and patterns that do not compile have none. -/
def parseLine (sourcePrefix : Bytes) (line : Bytes) (lineNo : ℕ) :
    Except AttrsError (Option (Rule P)) :=
  let line := trimLine line
  if line.isEmpty || line.head? = some 0x23 then .ok none
  else
    let (patBytes, attrsBytes) := splitPattern line
    if macroPrefix.isPrefixOf patBytes then .ok none
    else
      match globs.fromBytes patBytes with
      | none => .ok none
      | some pattern =>
        if globs.isNegative pattern then
          .error (.parse ("<".toUTF8.toList ++ sourcePrefix ++ ".gitattributes>".toUTF8.toList)
            lineNo "negated pattern not allowed in .gitattributes")
        else .ok (some ⟨pattern, extractFilterDecision attrsBytes, extractMergeDecision attrsBytes⟩)

/-- The rules of the lines, of which the first one has the given number. -/
def parseLinesFrom (sourcePrefix : Bytes) :
    (lineNo : ℕ) → List Bytes → Except AttrsError (List (Rule P))
  | _, [] => pure []
  | lineNo, line :: lines => do
    let rule ← parseLine globs sourcePrefix line lineNo
    let rules ← parseLinesFrom sourcePrefix (lineNo + 1) lines
    pure (rule.toList ++ rules)

def parseRules (bytes sourcePrefix : Bytes) : Except AttrsError (List (Rule P)) :=
  parseLinesFrom globs sourcePrefix 1 (bytes.splitOn 0x0A)

/-! ### Matchers -/

def AttrsMatcher.empty : AttrsMatcher P := ⟨[]⟩

/-- How deep a directory lies. -/
def AttrsFile.depth (file : AttrsFile P) : ℕ := file.dirPrefix.count 0x2F

def parseEntry (entry : Bytes × Bytes) : Except AttrsError (AttrsFile P) := do
  let rules ← parseRules globs entry.2 entry.1
  pure ⟨entry.1, rules⟩

/-- A matcher from directories and the files in them. -/
def AttrsMatcher.fromEntries (entries : List (Bytes × Bytes)) :
    Except AttrsError (AttrsMatcher P) := do
  let files ← entries.mapM (parseEntry globs)
  pure ⟨files.insertionSort fun a b => a.depth ≤ b.depth⟩

/-- Where the last component of a path begins, if it has a slash. -/
def basenamePos (relPath : Bytes) : Option ℕ :=
  if 0x2F ∈ relPath then some (relPath.rdropWhile (· ≠ 0x2F)).length else none

def patternMatches (pattern : P) (relPath : Bytes) : Bool :=
  globs.matchesPath pattern relPath (basenamePos relPath)

/-- Try all rules on a path, those of a file only on paths below its directory. -/
def AttrsMatcher.resolve {δ : Type*} (m : AttrsMatcher P) (attr : Rule P → Option δ)
    (relPath : Bytes) (initial : δ) : δ :=
  m.files.foldl (fun current file =>
    if file.dirPrefix.isPrefixOf relPath then
      file.rules.foldl (fun current rule =>
        match attr rule with
        | none => current
        | some d =>
          if patternMatches globs rule.pattern (relPath.drop file.dirPrefix.length) then d
          else current) current
    else current) initial

def trimStartSlashes (relPath : Bytes) : Bytes := relPath.dropWhile (· = 0x2F)

/-- What a rule says about LFS. -/
def Rule.lfs? (rule : Rule P) : Option Bool :=
  match rule.filter with
  | .noChange => none
  | .setLfs => some true
  | .notLfs => some false

/-- What a rule says about the merge driver. -/
def Rule.driver? (rule : Rule P) : Option (Option Bytes) :=
  match rule.merge with
  | .noChange => none
  | .set driver => some (some driver)
  | .unset => some none

def AttrsMatcher.isLfs (m : AttrsMatcher P) (relPath : Bytes) : Bool :=
  m.resolve globs Rule.lfs? (trimStartSlashes relPath) false

def AttrsMatcher.mergeDriver (m : AttrsMatcher P) (relPath : Bytes) : Option Bytes :=
  m.resolve globs Rule.driver? (trimStartSlashes relPath) none

/-! ### Precedence -/

/-- A rule with its directory and its place in the file. -/
structure AttrLine (P : Type*) where
  dir : Bytes
  index : ℕ
  rule : Rule P

/-- What a line decides for a path. -/
def AttrLine.decides {δ : Type*} (attr : Rule P → Option δ) (relPath : Bytes)
    (line : AttrLine P) : Option δ :=
  if line.dir.isPrefixOf relPath then
    if patternMatches globs line.rule.pattern (relPath.drop line.dir.length) then attr line.rule
    else none
  else none

/-- The second line has precedence: it stands in a deeper directory, or later in the same file. -/
def AttrLine.Below (a b : AttrLine P) : Prop :=
  StrictPrefix a.dir b.dir ∨ (a.dir = b.dir ∧ a.index < b.index)

/-- A line of one of the files. -/
def IsLine (entries : List (Bytes × Bytes)) (line : AttrLine P) : Prop :=
  ∃ contents rules, (line.dir, contents) ∈ entries ∧
    parseRules globs contents line.dir = .ok rules ∧ rules[line.index]? = some line.rule

/-- Of some lines the one that decides an attribute of a path: it has precedence over all others
that match the path and mention the attribute. -/
def Governs {δ : Type*} (attr : Rule P → Option δ) (among : AttrLine P → Prop) (relPath : Bytes)
    (line : AttrLine P) (d : δ) : Prop :=
  among line ∧ line.decides globs attr relPath = some d ∧
    ∀ other, among other → other.decides globs attr relPath ≠ none →
      other = line ∨ other.Below line

/-- A directory as it is written in front of the paths below it. -/
def IsDirPrefix (dir : Bytes) : Prop := dir = [] ∨ dir.getLast? = some 0x2F
  deriving Decidable

theorem AttrLine.Below.asymm {a b : AttrLine P} (h : a.Below b) : ¬ b.Below a := by
  rintro (hdir | ⟨hdir, hlt⟩)
  · rcases h with hdir' | ⟨hdir', -⟩
    · exact StrictPrefix.asymm hdir hdir'
    · exact StrictPrefix.irrefl _ (hdir' ▸ hdir)
  · rcases h with hdir' | ⟨-, hlt'⟩
    · exact StrictPrefix.irrefl _ (hdir ▸ hdir')
    · omega

/-- All lines in the order in which they are tried. -/
def AttrsFile.lines (file : AttrsFile P) : List (AttrLine P) :=
  file.rules.zipIdx.map fun (rule, i) => ⟨file.dirPrefix, i, rule⟩

def AttrsMatcher.lines (m : AttrsMatcher P) : List (AttrLine P) := m.files.flatMap AttrsFile.lines

theorem AttrsFile.mem_lines {file : AttrsFile P} {line : AttrLine P} :
    line ∈ file.lines ↔ line.dir = file.dirPrefix ∧ file.rules[line.index]? = some line.rule := by
  rw [lines, List.mem_map]
  constructor
  · rintro ⟨⟨rule, i⟩, hmem, rfl⟩
    exact ⟨rfl, List.mk_mem_zipIdx_iff_getElem?.mp hmem⟩
  · rintro ⟨hdir, hrule⟩
    refine ⟨(line.rule, line.index), List.mk_mem_zipIdx_iff_getElem?.mpr hrule, ?_⟩
    rw [← hdir]

section Resolve

variable {globs} {δ : Type*} {attr : Rule P → Option δ} {relPath : Bytes} {m : AttrsMatcher P}

theorem AttrLine.prefix_of_decides {line : AttrLine P}
    (h : line.decides globs attr relPath ≠ none) : line.dir <+: relPath := by
  rw [decides] at h
  by_cases hdir : line.dir.isPrefixOf relPath = true
  · exact List.isPrefixOf_iff_prefix.mp hdir
  · rw [if_neg hdir] at h
    exact absurd rfl h

/-- The rules of one file are tried as its lines are. -/
theorem AttrsFile.lastMatch_lines (file : AttrsFile P) (current : δ) :
    lastMatch (AttrLine.decides globs attr relPath) file.lines current =
      if file.dirPrefix.isPrefixOf relPath then
        file.rules.foldl (fun current rule =>
          match attr rule with
          | none => current
          | some d =>
            if patternMatches globs rule.pattern (relPath.drop file.dirPrefix.length) then d
            else current) current
      else current := by
  split_ifs with hdir
  · have hfold : lastMatch (AttrLine.decides globs attr relPath) file.lines current =
        (file.rules.zipIdx.map Prod.fst).foldl (fun current rule =>
          match attr rule with
          | none => current
          | some d =>
            if patternMatches globs rule.pattern (relPath.drop file.dirPrefix.length) then d
            else current) current := by
      rw [lastMatch, lines, List.foldl_map, List.foldl_map]
      refine List.foldl_ext _ _ _ fun current pair _ => ?_
      rw [AttrLine.decides, if_pos hdir]
      rcases attr pair.1 with _ | d
      · simp
      · split_ifs with hmatch
        · simp
        · simp
    rw [hfold, List.zipIdx_map_fst]
  · refine lastMatch_of_none (fun line hline => ?_) current
    by_contra hne
    have hprefix := AttrLine.prefix_of_decides hne
    rw [(AttrsFile.mem_lines.mp hline).1] at hprefix
    exact hdir (List.isPrefixOf_iff_prefix.mpr hprefix)

/-- The matcher takes the last line that decides. -/
theorem AttrsMatcher.resolve_eq (initial : δ) : m.resolve globs attr relPath initial =
    lastMatch (AttrLine.decides globs attr relPath) m.lines initial := by
  rw [lines, lastMatch_flatMap, resolve]
  simp only [AttrsFile.lastMatch_lines]

/-- The deeper of two directories above a path lies below the other one. -/
theorem prefix_of_count_le {a b : Bytes} (ha : a <+: relPath) (hb : b <+: relPath)
    (hdir : IsDirPrefix a) (hle : a.count 0x2F ≤ b.count 0x2F) : a <+: b := by
  rcases List.prefix_or_prefix_of_prefix ha hb with h | ⟨rest, rfl⟩
  · exact h
  · rcases List.eq_nil_or_concat' rest with rfl | ⟨front, last, rfl⟩
    · simp
    · rcases hdir with hnil | hlast
      · simp at hnil
      · rw [← List.append_assoc, List.getLast?_concat, Option.some_inj] at hlast
        subst hlast
        rw [List.count_append, List.count_append, List.count_singleton_self] at hle
        omega

/-- The files are sorted, and the directories differ. -/
structure AttrsMatcher.WellFormed (m : AttrsMatcher P) : Prop where
  sorted : m.files.Pairwise fun a b => a.depth ≤ b.depth
  dirs : ∀ file ∈ m.files, IsDirPrefix file.dirPrefix
  distinct : (m.files.map AttrsFile.dirPrefix).Nodup

/-- Lines that decide are tried in the order of their precedence. -/
theorem AttrsMatcher.WellFormed.inOrder (h : m.WellFormed) :
    InOrder (AttrLine.decides globs attr relPath) AttrLine.Below m.lines := by
  have hdistinct := h.distinct
  rw [List.Nodup, List.pairwise_map] at hdistinct
  refine List.pairwise_flatMap.mpr ⟨fun file _ => ?_, ?_⟩
  · rw [AttrsFile.lines, List.pairwise_map]
    have hindex : (file.rules.zipIdx.map Prod.snd).Pairwise (· < ·) := by
      rw [List.zipIdx_map_snd]
      exact List.pairwise_lt_range'
    exact (List.pairwise_map.mp hindex).imp fun hlt _ _ => .inr ⟨rfl, hlt⟩
  · refine (h.sorted.and hdistinct).imp_of_mem fun {a b} ha hb ⟨hle, hne⟩ => ?_
    intro x hx y hy hdecides hdecides'
    have hxdir := (AttrsFile.mem_lines.mp hx).1
    have hydir := (AttrsFile.mem_lines.mp hy).1
    have hxpath := AttrLine.prefix_of_decides hdecides
    have hypath := AttrLine.prefix_of_decides hdecides'
    rw [hxdir] at hxpath
    rw [hydir] at hypath
    refine .inl ⟨?_, ?_⟩
    · rw [hxdir, hydir]
      exact prefix_of_count_le hxpath hypath (h.dirs a ha) hle
    · rw [hxdir, hydir]
      exact hne

/-- The matcher gives what the line with precedence decides. -/
theorem AttrsMatcher.resolve_eq_iff (h : m.WellFormed) {initial d : δ} :
    m.resolve globs attr relPath initial = d ↔
      (∃ line, IsWinner (AttrLine.decides globs attr relPath) AttrLine.Below m.lines line d) ∨
      (initial = d ∧ ∀ line ∈ m.lines, line.decides globs attr relPath = none) := by
  rw [resolve_eq]
  exact lastMatch_eq_iff (fun _ _ => AttrLine.Below.asymm) h.inOrder

end Resolve

/-! ### Matchers of entries -/

section Entries

variable {globs} {entries entries' : List (Bytes × Bytes)} {m : AttrsMatcher P}
  {δ : Type*} {attr : Rule P → Option δ} {relPath : Bytes}

theorem parseEntry_eq_ok {entry : Bytes × Bytes} {file : AttrsFile P} :
    parseEntry globs entry = .ok file ↔
      parseRules globs entry.2 entry.1 = .ok file.rules ∧ file.dirPrefix = entry.1 := by
  rw [parseEntry, ExceptRun.bind_eq_ok]
  constructor
  · rintro ⟨rules, hrules, heq⟩
    obtain rfl := ExceptRun.pure_eq_ok.mp heq
    exact ⟨hrules, rfl⟩
  · rintro ⟨hrules, hdir⟩
    exact ⟨file.rules, hrules, ExceptRun.pure_eq_ok.mpr (by rw [← hdir])⟩

theorem exists_files (h : AttrsMatcher.fromEntries globs entries = .ok m) :
    ∃ files, entries.mapM (parseEntry globs) = .ok files ∧ m.files.Perm files ∧
      m.files.Pairwise fun a b => a.depth ≤ b.depth := by
  rw [AttrsMatcher.fromEntries, ExceptRun.bind_eq_ok] at h
  obtain ⟨files, hfiles, heq⟩ := h
  obtain rfl := ExceptRun.pure_eq_ok.mp heq
  let sort := KeyedSort.SortBy.insertion (AttrsFile.depth (P := P))
  exact ⟨files, hfiles, sort.perm files, sort.sorted files⟩

/-- The lines of the matcher are those of the entries. -/
theorem mem_lines_fromEntries (h : AttrsMatcher.fromEntries globs entries = .ok m)
    {line : AttrLine P} : line ∈ m.lines ↔ IsLine globs entries line := by
  obtain ⟨files, hfiles, hperm, -⟩ := exists_files h
  rw [AttrsMatcher.lines, List.mem_flatMap]
  constructor
  · rintro ⟨file, hfile, hline⟩
    obtain ⟨hdir, hrule⟩ := AttrsFile.mem_lines.mp hline
    obtain ⟨⟨dir, contents⟩, hentry, hparse⟩ :=
      ExceptRun.exists_of_mem_mapM hfiles (hperm.mem_iff.mp hfile)
    obtain ⟨hrules, hdirEq⟩ := parseEntry_eq_ok.mp hparse
    rw [hdirEq] at hdir
    rw [IsLine, hdir]
    exact ⟨contents, file.rules, hentry, hrules, hrule⟩
  · rintro ⟨contents, rules, hentry, hrules, hrule⟩
    obtain ⟨file, hfile, hparse⟩ := ExceptRun.exists_mem_of_mapM hfiles hentry
    obtain ⟨hrules', hdirEq⟩ := parseEntry_eq_ok.mp hparse
    rw [hrules] at hrules'
    obtain rfl := Except.ok.inj hrules'
    exact ⟨file, hperm.mem_iff.mpr hfile, AttrsFile.mem_lines.mpr ⟨hdirEq.symm, hrule⟩⟩

theorem wellFormed_fromEntries (h : AttrsMatcher.fromEntries globs entries = .ok m)
    (hdirs : ∀ entry ∈ entries, IsDirPrefix entry.1) (hdistinct : (entries.map Prod.fst).Nodup) :
    m.WellFormed := by
  obtain ⟨files, hfiles, hperm, hsorted⟩ := exists_files h
  have hmap : files.map AttrsFile.dirPrefix = entries.map Prod.fst :=
    ExceptRun.map_of_mapM (fun entry file hparse => (parseEntry_eq_ok.mp hparse).2) hfiles
  refine ⟨hsorted, fun file hfile => ?_, ?_⟩
  · obtain ⟨entry, hentry, hparse⟩ :=
      ExceptRun.exists_of_mem_mapM hfiles (hperm.mem_iff.mp hfile)
    rw [(parseEntry_eq_ok.mp hparse).2]
    exact hdirs entry hentry
  · rw [(hperm.map _).nodup_iff, hmap]
    exact hdistinct

/-- The matcher gives what the line that governs the path decides. -/
theorem resolve_fromEntries (h : AttrsMatcher.fromEntries globs entries = .ok m)
    (hdirs : ∀ entry ∈ entries, IsDirPrefix entry.1) (hdistinct : (entries.map Prod.fst).Nodup)
    {initial d : δ} : m.resolve globs attr relPath initial = d ↔
      (∃ line, Governs globs attr (IsLine globs entries) relPath line d) ∨
      (initial = d ∧ ∀ line, IsLine globs entries line → line.decides globs attr relPath = none) := by
  rw [AttrsMatcher.resolve_eq_iff (wellFormed_fromEntries h hdirs hdistinct)]
  simp only [IsWinner, Governs, mem_lines_fromEntries h]

/-- A matcher can be built from entries exactly when it can from the same ones in another order. -/
theorem exists_fromEntries_of_perm (hperm : entries.Perm entries')
    (h : AttrsMatcher.fromEntries globs entries = .ok m) :
    ∃ m', AttrsMatcher.fromEntries globs entries' = .ok m' := by
  obtain ⟨files, hfiles, -⟩ := exists_files h
  rcases hfiles' : entries'.mapM (parseEntry globs) with e | files'
  · obtain ⟨entry, hentry, herror⟩ := ExceptRun.mapM_eq_error hfiles'
    obtain ⟨file, -, hfile⟩ := ExceptRun.exists_mem_of_mapM hfiles (hperm.mem_iff.mpr hentry)
    rw [hfile] at herror
    cases herror
  · exact ⟨_, by rw [AttrsMatcher.fromEntries, hfiles']; rfl⟩

theorem isLine_congr (hperm : entries.Perm entries') {line : AttrLine P} :
    IsLine globs entries line ↔ IsLine globs entries' line := by
  simp only [IsLine, hperm.mem_iff]

/-- Entries in another order decide alike. -/
theorem resolve_perm {m' : AttrsMatcher P} (hperm : entries.Perm entries')
    (h : AttrsMatcher.fromEntries globs entries = .ok m)
    (h' : AttrsMatcher.fromEntries globs entries' = .ok m')
    (hdirs : ∀ entry ∈ entries, IsDirPrefix entry.1) (hdistinct : (entries.map Prod.fst).Nodup)
    (initial : δ) : m'.resolve globs attr relPath initial = m.resolve globs attr relPath initial := by
  have hdirs' : ∀ entry ∈ entries', IsDirPrefix entry.1 := fun entry hentry =>
    hdirs entry (hperm.mem_iff.mpr hentry)
  have hdistinct' := (hperm.map Prod.fst).nodup_iff.mp hdistinct
  rw [resolve_fromEntries h' hdirs' hdistinct']
  have hself := (resolve_fromEntries h hdirs hdistinct).mp
    (Eq.refl (m.resolve globs attr relPath initial))
  simpa only [Governs, isLine_congr hperm] using hself

/-- A path is stored in LFS, and has a merge driver, exactly if the line with precedence among all
those that match it and mention the attribute says so. The order of the entries does not matter. -/
theorem AttrsMatcher.attributes_exact (h : AttrsMatcher.fromEntries globs entries = .ok m)
    (hdirs : ∀ entry ∈ entries, IsDirPrefix entry.1) (hdistinct : (entries.map Prod.fst).Nodup) :
    (∀ path, m.isLfs globs path = true ↔
      ∃ line, Governs globs Rule.lfs? (IsLine globs entries) (trimStartSlashes path) line true) ∧
    (∀ path driver, m.mergeDriver globs path = some driver ↔
      ∃ line, Governs globs Rule.driver? (IsLine globs entries) (trimStartSlashes path) line
        (some driver)) ∧
    ∀ entries', entries.Perm entries' → ∃ m', AttrsMatcher.fromEntries globs entries' = .ok m' ∧
      ∀ path, m'.isLfs globs path = m.isLfs globs path ∧
        m'.mergeDriver globs path = m.mergeDriver globs path := by
  refine ⟨fun path => ?_, fun path driver => ?_, fun entries' hperm => ?_⟩
  · rw [isLfs, resolve_fromEntries h hdirs hdistinct]
    simp
  · rw [mergeDriver, resolve_fromEntries h hdirs hdistinct]
    simp
  · obtain ⟨m', hm'⟩ := exists_fromEntries_of_perm hperm h
    exact ⟨m', hm', fun path => ⟨resolve_perm hperm h hm' hdirs hdistinct _,
      resolve_perm hperm h hm' hdirs hdistinct _⟩⟩

end Entries

end Parsing

/-! ### A small tree of attributes -/

/-- Patterns without wildcards and slashes, which match the last component of a path. -/
def literalGlobs : GlobLibrary Bytes where
  fromBytes bytes := if bytes.isEmpty then none else some bytes
  isNegative pattern := pattern.head? = some 0x21
  matchesPath pattern relPath pos := pattern = relPath.drop (pos.getD 0)

/-- All files with the name `a` are stored in LFS, except for those in the directory `d`. -/
def sampleEntries : List (Bytes × Bytes) :=
  [("d/".toUTF8.toList, "a -filter\n".toUTF8.toList),
    ([], "a filter=lfs merge=union\n".toUTF8.toList)]

def sampleMatcher : AttrsMatcher Bytes :=
  ⟨[⟨[], [⟨"a".toUTF8.toList, .setLfs, .set "union".toUTF8.toList⟩]⟩,
    ⟨"d/".toUTF8.toList, [⟨"a".toUTF8.toList, .notLfs, .noChange⟩]⟩]⟩

example : sampleMatcher.isLfs literalGlobs "e/a".toUTF8.toList = true ∧
    sampleMatcher.isLfs literalGlobs "d/a".toUTF8.toList = false := by decide +kernel

theorem AttrsMatcher.attributes_exact_sample :
    (∀ path, sampleMatcher.isLfs literalGlobs path = true ↔
      ∃ line, Governs literalGlobs Rule.lfs? (IsLine literalGlobs sampleEntries)
        (trimStartSlashes path) line true) ∧
    (∀ path driver, sampleMatcher.mergeDriver literalGlobs path = some driver ↔
      ∃ line, Governs literalGlobs Rule.driver? (IsLine literalGlobs sampleEntries)
        (trimStartSlashes path) line (some driver)) ∧
    ∀ entries', sampleEntries.Perm entries' → ∃ m', fromEntries literalGlobs entries' = .ok m' ∧
      ∀ path, m'.isLfs literalGlobs path = sampleMatcher.isLfs literalGlobs path ∧
        m'.mergeDriver literalGlobs path = sampleMatcher.mergeDriver literalGlobs path :=
  AttrsMatcher.attributes_exact (by decide +kernel) (by decide +kernel) (by decide +kernel)

end Maw.Lfs
