import Maw.Merge.ConflictMarkers

/-!
# Resolving a file with conflict markers

A file consists of lines of context and of blocks. What is read from it drops the empty lines in
front of a context and of a side, and what is written for a block has one line at least, and an
empty line behind both sides. With no such lines the file keeps all lines of context, the chosen
sides stand in place of their blocks, and the other blocks are read as before.

## Main definitions

* `FileItem`, `fileText` — the parts of a file, and its text.
* `resolvedLines` — the lines of the file with chosen sides.
* `ResolvesTo` — the file is resolved to these lines, and the other blocks are kept.

## Main results

* `parseLines_items` — what is read from a file.
* `resolveFrom_chunksOf` — what is written for it.
* `resolveChunks_iff` — when the file is resolved to the lines with chosen sides.
-/

open Lines

namespace Maw

/-! ### Files with markers -/

/-- A block: its sides, the base if there is one, and what stands behind the markers. -/
structure BlockText where
  leftName : List Char
  leftSuffix : List Char
  left : List (List Char)
  base : Option (List Char × List (List Char))
  right : List (List Char)
  rightName : List Char
  rightSuffix : List Char

/-- A line of context or a block. -/
inductive FileItem
  | line (line : List Char)
  | block (block : BlockText)

namespace BlockText

def baseContent (b : BlockText) : List (List Char) := b.base.elim [] Prod.snd

def baseLines (b : BlockText) : List (List Char) :=
  b.base.elim [] fun (label, lines) => (middleMarker ++ label) :: lines

def lines (b : BlockText) : List (List Char) :=
  (leftMarker ++ ' ' :: (b.leftName ++ b.leftSuffix)) :: (b.left ++ (b.baseLines ++
    sidesMarker :: (b.right ++ [rightMarker ++ ' ' :: (b.rightName ++ b.rightSuffix)])))

end BlockText

def FileItem.lines : FileItem → List (List Char)
  | line l => [l]
  | block b => b.lines

/-- The text of a file, with a line feed at its end or without. -/
def fileText (items : List FileItem) (trailing : Bool) : List Char :=
  if trailing then unlines '\n' (items.flatMap (·.lines))
  else ['\n'].intercalate (items.flatMap (·.lines))

/-- The name of a workspace, and what may follow it in parentheses. -/
structure IsLabel (name suffix : List Char) : Prop where
  trim_name : trim name = name
  notMem_name : '(' ∉ name
  suffix : suffix = [] ∨ ∃ note, suffix = ' ' :: '(' :: note

/-- A line that is no marker. -/
def IsPlainLine (line : List Char) : Prop :=
  ∀ marker ∈ [leftMarker, middleMarker, sidesMarker, rightMarker], ¬ marker <+: line

structure BlockText.WellFormed (b : BlockText) : Prop where
  leftLabel : IsLabel b.leftName b.leftSuffix
  rightLabel : IsLabel b.rightName b.rightSuffix
  left : ∀ line ∈ b.left, IsPlainLine line
  base : ∀ line ∈ b.baseContent, IsPlainLine line
  right : ∀ line ∈ b.right, IsPlainLine line

def FileItem.WellFormed : FileItem → Prop
  | line l => ¬ leftMarker <+: l
  | block b => b.WellFormed

/-- What is read from a block: empty lines in front of its contents are dropped. -/
def joinLines (lines : List (List Char)) : List Char := lines.foldl pushLine []

def BlockText.parsed (b : BlockText) : ConflictBlock :=
  ⟨b.leftName, joinLines b.left, joinLines b.baseContent, b.rightName, joinLines b.right⟩

/-- The pieces that are read from a file behind a context. -/
def chunksOf (context : List Char) : List FileItem → List FileChunk
  | [] => flushContext context
  | .line l :: items => chunksOf (pushLine context l) items
  | .block b :: items => flushContext context ++ .conflict b.parsed :: chunksOf [] items

/-! ### Names -/

theorem trim_space (text : List Char) : trim (' ' :: text) = trim text := by
  rw [trim, List.dropWhile_cons_of_pos (by decide), ← trim]

/-- A text that is trimmed has no white space at its ends. -/
theorem dropWhile_of_trim {text : List Char} (h : trim text = text) :
    text.dropWhile isWhitespace = text ∧
      (text.reverse.dropWhile isWhitespace).reverse = text := by
  have hstart : text.dropWhile isWhitespace = text := by
    refine (List.dropWhile_suffix _).eq_of_length (le_antisymm
      (List.dropWhile_suffix _).length_le ?_)
    have hlength := congrArg List.length h
    have hle := (List.dropWhile_suffix isWhitespace
      (l := (text.dropWhile isWhitespace).reverse)).length_le
    rw [trim, List.length_reverse] at hlength
    rw [List.length_reverse] at hle
    omega
  rw [trim, hstart] at h
  exact ⟨hstart, h⟩

/-- White space at the end is behind a character that is none. -/
theorem exists_trimEnd {c : Char} (hc : isWhitespace c = false) (front back : List Char) :
    ∃ back', ((front ++ c :: back).reverse.dropWhile isWhitespace).reverse =
      front ++ c :: back' := by
  have hdrop : (c :: front.reverse).dropWhile isWhitespace = c :: front.reverse :=
    List.dropWhile_cons_of_neg (by rw [hc]; exact Bool.false_ne_true)
  rw [List.reverse_append, List.reverse_cons, List.append_assoc, List.singleton_append,
    List.dropWhile_append]
  split_ifs
  · exact ⟨[], by rw [hdrop]; simp⟩
  · exact ⟨(back.reverse.dropWhile isWhitespace).reverse, by simp⟩

/-- The name in a trimmed text behind a marker. -/
def nameOf (trimmed : List Char) : List Char :=
  if '(' ∈ trimmed then trim (trimmed.takeWhile (· ≠ '(')) else trimmed

theorem nameOf_trim {name suffix : List Char} (h : IsLabel name suffix) :
    nameOf (trim (name ++ suffix)) = name := by
  obtain ⟨hname, hparen, rfl | ⟨note, rfl⟩⟩ := h
  · rw [List.append_nil, hname, nameOf, if_neg hparen]
  · obtain ⟨hstart, hend⟩ := dropWhile_of_trim hname
    -- What stands in front of the parenthesis is the name with a space.
    obtain ⟨front, hfront, hnot, htrim⟩ : ∃ front,
        (name ++ ' ' :: '(' :: note).dropWhile isWhitespace = front ++ '(' :: note ∧
          '(' ∉ front ∧ trim front = name := by
      rcases name with _ | ⟨c, name⟩
      · exact ⟨[], rfl, List.not_mem_nil, rfl⟩
      · have hc : isWhitespace c = false := by
          by_contra hws
          rw [List.dropWhile_cons_of_pos (by simpa using hws)] at hstart
          have hle := (List.dropWhile_suffix isWhitespace (l := name)).length_le
          rw [hstart, List.length_cons] at hle
          omega
        refine ⟨c :: name ++ [' '], ?_, by simpa using hparen, ?_⟩
        · rw [List.cons_append, List.dropWhile_cons_of_neg (by rw [hc]; exact Bool.false_ne_true)]
          simp
        · rw [trim, List.cons_append,
            List.dropWhile_cons_of_neg (by rw [hc]; exact Bool.false_ne_true), ← List.cons_append,
            List.reverse_append, List.reverse_singleton, List.singleton_append,
            List.dropWhile_cons_of_pos (by decide), hend]
    obtain ⟨note', hnote⟩ := exists_trimEnd (c := '(') (by decide) front note
    have htake : (front ++ '(' :: note').takeWhile (· ≠ '(') = front := by
      rw [List.takeWhile_append_of_pos fun c hc => by
        simpa using ne_of_mem_of_not_mem hc hnot]
      simp
    rw [trim, hfront, hnote, nameOf, if_pos (by simp), htake, htrim]

theorem leftMarker_eq : leftMarker = List.replicate 7 '<' := by decide +kernel

theorem rightMarker_eq : rightMarker = List.replicate 7 '>' := by decide +kernel

theorem extractNameFromMarker_left {name suffix : List Char} (h : IsLabel name suffix) :
    extractNameFromMarker (leftMarker ++ ' ' :: (name ++ suffix)) = name := by
  have hdrop : (((leftMarker ++ ' ' :: (name ++ suffix)).dropWhile (· = '<')).dropWhile
      (· = '>')).dropWhile (· = '|') = ' ' :: (name ++ suffix) := by
    rw [leftMarker_eq, List.dropWhile_append_of_pos fun c hc =>
      decide_eq_true (List.eq_of_mem_replicate hc)]
    rfl
  have hname := nameOf_trim h
  rw [← trim_space] at hname
  rwa [extractNameFromMarker, hdrop]

theorem extractNameFromMarker_right {name suffix : List Char} (h : IsLabel name suffix) :
    extractNameFromMarker (rightMarker ++ ' ' :: (name ++ suffix)) = name := by
  have hdrop : (((rightMarker ++ ' ' :: (name ++ suffix)).dropWhile (· = '<')).dropWhile
      (· = '>')).dropWhile (· = '|') = ' ' :: (name ++ suffix) := by
    have hfirst : (rightMarker ++ ' ' :: (name ++ suffix)).dropWhile (· = '<') =
        rightMarker ++ ' ' :: (name ++ suffix) := rfl
    rw [hfirst, rightMarker_eq, List.dropWhile_append_of_pos fun c hc =>
      decide_eq_true (List.eq_of_mem_replicate hc)]
    rfl
  have hname := nameOf_trim h
  rw [← trim_space] at hname
  rwa [extractNameFromMarker, hdrop]

/-! ### Reading a file -/

/-- Lines that are no markers are added to the part of a block in which they stand. -/
theorem parseLines_plain {lines : List (List Char)} (h : ∀ line ∈ lines, IsPlainLine line)
    (b : OpenBlock) (rest : List (List Char)) :
    parseLines [] (some b) (lines ++ rest) =
      parseLines [] (some (lines.foldl OpenBlock.pushContentLine b)) rest := by
  induction lines generalizing b with
  | nil => rfl
  | cons line lines ih =>
    obtain ⟨hline, hlines⟩ := List.forall_mem_cons.mp h
    have hstep : b.step line = .inr (b.pushContentLine line) := by
      have hnot (marker : List Char)
          (hmarker : marker ∈ [leftMarker, middleMarker, sidesMarker, rightMarker]) :
          marker.isPrefixOf line = false := by
        rw [← Bool.not_eq_true, List.isPrefixOf_iff_prefix]
        exact hline marker hmarker
      simp only [OpenBlock.step, hnot leftMarker (by simp), hnot rightMarker (by simp),
        hnot middleMarker (by simp), hnot sidesMarker (by simp)]
      simp
    rw [List.cons_append, parseLines, hstep, List.foldl_cons]
    exact ih hlines _

theorem foldl_pushContentLine_left (lines : List (List Char)) (b : OpenBlock)
    (hbase : b.inBase = false) (hright : b.inRight = false) :
    lines.foldl OpenBlock.pushContentLine b =
      { b with leftContent := lines.foldl pushLine b.leftContent } := by
  induction lines generalizing b with
  | nil => rfl
  | cons line lines ih =>
    rw [List.foldl_cons, ih _ (by simp [OpenBlock.pushContentLine, hbase, hright])
      (by simp [OpenBlock.pushContentLine, hbase, hright])]
    simp [OpenBlock.pushContentLine, hbase, hright]

theorem foldl_pushContentLine_base (lines : List (List Char)) (b : OpenBlock)
    (hbase : b.inBase = true) (hright : b.inRight = false) :
    lines.foldl OpenBlock.pushContentLine b =
      { b with baseContent := lines.foldl pushLine b.baseContent } := by
  induction lines generalizing b with
  | nil => rfl
  | cons line lines ih =>
    rw [List.foldl_cons, ih _ (by simp [OpenBlock.pushContentLine, hbase, hright])
      (by simp [OpenBlock.pushContentLine, hbase, hright])]
    simp [OpenBlock.pushContentLine, hbase, hright]

theorem foldl_pushContentLine_right (lines : List (List Char)) (b : OpenBlock)
    (hright : b.inRight = true) :
    lines.foldl OpenBlock.pushContentLine b =
      { b with rightContent := lines.foldl pushLine b.rightContent } := by
  induction lines generalizing b with
  | nil => rfl
  | cons line lines ih =>
    rw [List.foldl_cons, ih _ (by simp [OpenBlock.pushContentLine, hright])]
    simp [OpenBlock.pushContentLine, hright]

/-- What is read from a block. -/
theorem parseLines_block {b : BlockText} (h : b.WellFormed) (context : List Char)
    (rest : List (List Char)) :
    parseLines context none (b.lines ++ rest) =
      flushContext context ++ .conflict b.parsed :: parseLines [] none rest := by
  have hopen : leftMarker.isPrefixOf (leftMarker ++ ' ' :: (b.leftName ++ b.leftSuffix)) = true :=
    List.isPrefixOf_iff_prefix.mpr (List.prefix_append _ _)
  have hbase (lines : List (List Char)) :
      parseLines [] (some ⟨b.leftName, joinLines b.left, [], [], false, false, 0⟩)
          (b.baseLines ++ sidesMarker :: lines) =
        parseLines [] (some ⟨b.leftName, joinLines b.left, joinLines b.baseContent, [], false, true,
          0⟩) lines := by
    have hcontent := h.base
    rw [BlockText.baseContent] at hcontent
    rw [BlockText.baseLines, BlockText.baseContent]
    rcases hb : b.base with _ | ⟨label, base⟩
    · rfl
    · rw [hb, Option.elim_some] at hcontent
      have hmiddle (b : OpenBlock) (hb : b.nestedDepth = 0) :
          b.step (middleMarker ++ label) = .inr { b with inBase := true } := by
        have hleft : leftMarker.isPrefixOf (middleMarker ++ label) = false := rfl
        have hright : rightMarker.isPrefixOf (middleMarker ++ label) = false := rfl
        have hprefix : middleMarker.isPrefixOf (middleMarker ++ label) = true :=
          List.isPrefixOf_iff_prefix.mpr (List.prefix_append _ _)
        rw [OpenBlock.step, hleft, hright, hprefix, hb]
        rfl
      rw [Option.elim_some, Option.elim_some, List.cons_append, parseLines, hmiddle _ rfl]
      dsimp only
      rw [parseLines_plain hcontent, foldl_pushContentLine_base _ _ rfl rfl]
      rfl
  have hclose (b' : OpenBlock) (hb : b'.nestedDepth = 0) :
      b'.step (rightMarker ++ ' ' :: (b.rightName ++ b.rightSuffix)) =
        .inl (b'.close b.rightName) := by
    have hleft : leftMarker.isPrefixOf
        (rightMarker ++ ' ' :: (b.rightName ++ b.rightSuffix)) = false := rfl
    have hprefix : rightMarker.isPrefixOf
        (rightMarker ++ ' ' :: (b.rightName ++ b.rightSuffix)) = true :=
      List.isPrefixOf_iff_prefix.mpr (List.prefix_append _ _)
    rw [OpenBlock.step, extractNameFromMarker_right h.rightLabel, hleft, hprefix, hb]
    rfl
  rw [BlockText.lines, List.cons_append, parseLines, if_pos hopen,
    extractNameFromMarker_left h.leftLabel, List.append_assoc, parseLines_plain h.left,
    foldl_pushContentLine_left _ _ rfl rfl, List.append_assoc, List.cons_append]
  refine congrArg (flushContext context ++ ·) ((hbase _).trans ?_)
  rw [List.append_assoc, parseLines_plain h.right, foldl_pushContentLine_right _ _ rfl,
    List.singleton_append, parseLines, hclose _ rfl]
  rfl

/-- What is read from the lines of a file. -/
theorem parseLines_items {items : List FileItem} (h : ∀ item ∈ items, item.WellFormed)
    (context : List Char) :
    parseLines context none (items.flatMap (·.lines)) = chunksOf context items := by
  induction items generalizing context with
  | nil => rfl
  | cons item items ih =>
    obtain ⟨hitem, hitems⟩ := List.forall_mem_cons.mp h
    rw [List.flatMap_cons]
    cases item with
    | line l =>
      have hnot : leftMarker.isPrefixOf l = false := by
        rw [← Bool.not_eq_true, List.isPrefixOf_iff_prefix]
        exact hitem
      rw [FileItem.lines, List.singleton_append, parseLines, hnot, if_neg Bool.false_ne_true,
        ih hitems, chunksOf]
    | block b => rw [FileItem.lines, parseLines_block hitem, ih hitems, chunksOf]

/-! ### Empty lines -/

/-- The lines that are written for the content of a side. -/
def keptLines : List (List Char) → List (List Char)
  | [] => [[]]
  | l :: ls => if l.isEmpty then keptLines ls else l :: ls

theorem foldl_pushLine_append {text : List Char} (h : text ≠ []) (lines : List (List Char)) :
    lines.foldl pushLine text ++ ['\n'] = text ++ '\n' :: unlines '\n' lines := by
  induction lines generalizing text with
  | nil => rfl
  | cons l lines ih =>
    have hpush : pushLine text l = text ++ '\n' :: l := by
      rw [pushLine, if_neg (by simpa using h)]
    rw [List.foldl_cons, hpush, ih (by simp), unlines_cons, List.append_assoc, List.cons_append]

theorem joinLines_append (lines : List (List Char)) :
    joinLines lines ++ ['\n'] = unlines '\n' (keptLines lines) := by
  induction lines with
  | nil => rfl
  | cons l lines ih =>
    rw [keptLines]
    rcases l with _ | ⟨c, l⟩
    · exact ih
    · rw [joinLines, List.foldl_cons]
      exact (foldl_pushLine_append (List.cons_ne_nil c l) lines).trans (unlines_cons _ _).symm

theorem joinLines_append_cons (lines : List (List Char)) (text : List Char) :
    joinLines lines ++ '\n' :: text = unlines '\n' (keptLines lines) ++ text := by
  rw [← joinLines_append, List.append_assoc, List.singleton_append]

theorem joinLines_keptLines (lines : List (List Char)) :
    joinLines (keptLines lines) = joinLines lines := by
  induction lines with
  | nil => rfl
  | cons l lines ih =>
    rw [keptLines]
    rcases l with _ | ⟨c, l⟩
    · exact ih
    · rfl

theorem joinLines_ne_nil {lines : List (List Char)} (hne : lines ≠ [])
    (h : lines.head? ≠ some []) : joinLines lines ≠ [] := by
  rcases lines with _ | ⟨_ | ⟨c, l⟩, lines⟩
  · exact absurd rfl hne
  · exact absurd rfl h
  · intro hnil
    have htext := foldl_pushLine_append (List.cons_ne_nil c l) lines
    rw [joinLines, List.foldl_cons] at hnil
    rw [show lines.foldl pushLine (c :: l) = [] from hnil] at htext
    simp at htext

theorem keptLines_subset (lines : List (List Char)) : keptLines lines ⊆ [] :: lines := by
  induction lines with
  | nil => exact List.Subset.refl _
  | cons l lines ih =>
    rw [keptLines]
    split_ifs
    · intro line hline
      rcases List.mem_cons.mp (ih hline) with rfl | hmem
      · exact List.mem_cons_self
      · exact List.mem_cons_of_mem _ (List.mem_cons_of_mem _ hmem)
    · exact List.subset_cons_self _ _

theorem keptLines_ne_nil (lines : List (List Char)) : keptLines lines ≠ [] := by
  induction lines with
  | nil => exact List.cons_ne_nil _ _
  | cons l lines ih =>
    rw [keptLines]
    split_ifs
    · exact ih
    · exact List.cons_ne_nil _ _

/-- Lines that are no empty lines are all kept, but for none one is written. -/
theorem length_keptLines {lines : List (List Char)} (h : ∀ l ∈ lines, l ≠ []) :
    (keptLines lines).length = lines.length + if lines = [] then 1 else 0 := by
  rcases lines with _ | ⟨l, lines⟩
  · rfl
  · have hl : l.isEmpty = false := by simpa using h l List.mem_cons_self
    rw [keptLines, hl, if_neg Bool.false_ne_true, if_neg (List.cons_ne_nil _ _), Nat.add_zero]

/-- The lines that are kept as they are: a line that is not empty is in front, or they are one empty
line. -/
theorem keptLines_eq_self_iff {lines : List (List Char)} :
    keptLines lines = lines ↔ lines = [[]] ∨ lines ≠ [] ∧ lines.head? ≠ some [] := by
  rcases lines with _ | ⟨l, lines⟩
  · simp [keptLines]
  rcases l with _ | ⟨c, l⟩
  · have hlength : (keptLines lines).length ≤ max 1 lines.length := by
      induction lines with
      | nil => exact le_rfl
      | cons l lines ih =>
        rw [keptLines]
        split_ifs
        · refine ih.trans ?_
          rw [List.length_cons]
          omega
        · exact le_max_right _ _
    constructor
    · intro h
      rw [keptLines, List.isEmpty_nil, if_pos rfl] at h
      rw [h, List.length_cons] at hlength
      have hnil : lines = [] := List.length_eq_zero_iff.mp (by omega)
      exact .inl (by rw [hnil])
    · rintro (h | ⟨-, h⟩)
      · rw [h]
        rfl
      · exact absurd rfl h
  · simp [keptLines]

theorem joinLines_append_of_head {lines : List (List Char)} (hne : lines ≠ [])
    (h : lines.head? ≠ some []) : joinLines lines ++ ['\n'] = unlines '\n' lines := by
  rw [joinLines_append, keptLines_eq_self_iff.mpr (.inr ⟨hne, h⟩)]

/-! ### Chosen sides -/

/-- A side of a block, or both. -/
inductive ChosenSide
  | left
  | right
  | both

/-- A side is chosen by a name that its label has. -/
def IsNamed (side : Option (List Char)) (b : BlockText) : Option ChosenSide → Prop
  | none => side = none
  | some .left => ∃ name, side = some name ∧ nameMatches name b.leftName = true
  | some .right => ∃ name, side = some name ∧ nameMatches name b.rightName = true
  | some .both => side = some "both".toList

namespace BlockText

/-- The lines of a chosen side. -/
def chosenLines (b : BlockText) : ChosenSide → List (List Char)
  | .left => b.left
  | .right => b.right
  | .both => b.left ++ b.right

/-- The lines that are written for a chosen side. -/
def writtenLines (b : BlockText) : ChosenSide → List (List Char)
  | .left => keptLines b.left
  | .right => keptLines b.right
  | .both => keptLines b.left ++ (keptLines b.right ++ [[]])

/-- A block as it is written again. -/
def written (b : BlockText) : BlockText where
  leftName := b.leftName
  leftSuffix := []
  left := keptLines b.left
  base := if (joinLines b.baseContent).isEmpty then none
    else some (" base".toList, keptLines b.baseContent)
  right := keptLines b.right
  rightName := b.rightName
  rightSuffix := []

end BlockText

/-- The blocks of a file with their numbers. -/
def numberedBlocks (idx : ℕ) : List FileItem → List (ℕ × BlockText)
  | [] => []
  | .line _ :: items => numberedBlocks idx items
  | .block b :: items => (idx, b) :: numberedBlocks (idx + 1) items

section Replace

variable (lines : BlockText → ChosenSide → List (List Char)) (choice : ℕ → Option ChosenSide)

/-- What is put in place of a block. -/
def replaceBlock (idx : ℕ) (b : BlockText) : List FileItem :=
  match choice idx with
  | none => [.block b.written]
  | some side => (lines b side).map .line

/-- The parts of a file with lines in place of the blocks for which a side is chosen. -/
def replaceBlocks (idx : ℕ) : List FileItem → List FileItem
  | [] => []
  | .line l :: items => .line l :: replaceBlocks idx items
  | .block b :: items => replaceBlock lines choice idx b ++ replaceBlocks (idx + 1) items

end Replace

/-- The lines of a file with chosen sides in place of their blocks. -/
def resolvedLines (choice : ℕ → Option ChosenSide) (items : List FileItem) : List (List Char) :=
  (replaceBlocks BlockText.chosenLines choice 0 items).flatMap (·.lines)

/-! ### Writing a file -/

/-- Names that mean the chosen side: not the word for both, and that of the right side is not one of
the left side. -/
def IsUnambiguous (side : Option (List Char)) (b : BlockText) : Option ChosenSide → Prop
  | some .left => side ≠ some "both".toList
  | some .right => side ≠ some "both".toList ∧
    ∀ name, side = some name → nameMatches name b.leftName = false
  | _ => True

/-- Empty lines of context stand behind other lines of context. -/
def NoLeadingEmpty (afterLine : Bool) : List FileItem → Prop
  | [] => True
  | .line l :: items => (afterLine = false → l ≠ []) ∧ NoLeadingEmpty true items
  | .block _ :: items => NoLeadingEmpty false items

/-- Whether a line of context is the last part. -/
def endsInLine (afterLine : Bool) : List FileItem → Bool
  | [] => afterLine
  | .line _ :: items => endsInLine true items
  | .block _ :: items => endsInLine false items

theorem markerText_parsed (b : BlockText) : markerText b.parsed = unlines '\n' b.written.lines := by
  have hbase : (if (joinLines b.baseContent).isEmpty then []
      else middleMarker ++ " base\n".toList ++ joinLines b.baseContent ++ ['\n']) =
        unlines '\n' b.written.baseLines := by
    rw [BlockText.baseLines, BlockText.written]
    split_ifs
    · rfl
    · rw [List.append_assoc, joinLines_append, Option.elim_some, unlines_cons]
      simp
  rw [markerText, BlockText.parsed]
  dsimp only
  rw [joinLines_append_cons, joinLines_append_cons, hbase, BlockText.lines, unlines_cons,
    unlines_append, unlines_append, unlines_cons, unlines_append]
  simp [BlockText.written, unlines_cons]

theorem chosenText_parsed {side blockId : List Char} {b : BlockText} {chosen : ChosenSide}
    (hnamed : IsNamed (some side) b (some chosen))
    (hmeans : IsUnambiguous (some side) b (some chosen)) :
    chosenText side blockId b.parsed = .ok (unlines '\n' (b.writtenLines chosen)) := by
  rw [chosenText]
  cases chosen with
  | left =>
    obtain ⟨name, heq, hname⟩ := hnamed
    obtain rfl := Option.some.inj heq
    rw [BlockText.parsed, if_neg fun hboth => hmeans (congrArg some hboth), if_pos hname,
      joinLines_append]
    rfl
  | right =>
    obtain ⟨name, heq, hname⟩ := hnamed
    obtain rfl := Option.some.inj heq
    have hleft : ¬ nameMatches side b.leftName = true :=
      Bool.eq_false_iff.mp (hmeans.2 side rfl)
    rw [BlockText.parsed, if_neg fun hboth => hmeans.1 (congrArg some hboth), if_neg hleft,
      if_pos hname, joinLines_append]
    rfl
  | both =>
    rw [if_pos (Option.some.inj hnamed), BlockText.parsed, joinLines_append_cons,
      joinLines_append_cons, BlockText.writtenLines, unlines_append, unlines_append]
    rfl

section Write

variable {fileSide : Option (List Char)} {blockSides : List Char → Option (List Char)}
  {choice : ℕ → Option ChosenSide}

/-- A context in front of a block is written with its lines. -/
theorem resolveFrom_flushContext {context : List (List Char)} (h : context.head? ≠ some [])
    {chunks : List FileChunk} (hchunks : chunks ≠ []) (idx : ℕ) :
    resolveFrom fileSide blockSides idx (flushContext (joinLines context) ++ chunks) =
      (resolveFrom fileSide blockSides idx chunks).map fun r =>
        (unlines '\n' context ++ r.1, r.2) := by
  rcases eq_or_ne context [] with rfl | hne
  · rcases hresolve : resolveFrom fileSide blockSides idx chunks with e | r
    · exact hresolve
    · exact hresolve
  · rw [flushContext, if_neg (by simpa using joinLines_ne_nil hne h), List.singleton_append,
      resolveFrom, if_neg (by simpa using hchunks), joinLines_append_of_head hne h]
    rcases resolveFrom fileSide blockSides idx chunks with e | r
    · rfl
    · rfl

/-- What is written for the pieces of a file, behind lines of context. -/
theorem resolveFrom_chunksOf {items : List FileItem} {context : List (List Char)}
    (hcontext : context.head? ≠ some []) (hitems : NoLeadingEmpty (!context.isEmpty) items)
    {idx : ℕ}
    (hnamed : ∀ p ∈ numberedBlocks idx items,
      IsNamed (sideOf fileSide blockSides p.1) p.2 (choice p.1) ∧
        IsUnambiguous (sideOf fileSide blockSides p.1) p.2 (choice p.1)) :
    ∃ output, resolveFrom fileSide blockSides idx (chunksOf (joinLines context) items) =
        .ok (output, (numberedBlocks idx items).any fun p => (choice p.1).isSome) ∧
      output ++ (if endsInLine (!context.isEmpty) items then ['\n'] else []) =
        unlines '\n' (context ++
          (replaceBlocks BlockText.writtenLines choice idx items).flatMap (·.lines)) := by
  induction items generalizing context idx with
  | nil =>
    rw [chunksOf, replaceBlocks, List.flatMap_nil, List.append_nil, endsInLine]
    rcases eq_or_ne context [] with rfl | hne
    · exact ⟨[], rfl, rfl⟩
    · refine ⟨joinLines context, ?_, ?_⟩
      · rw [flushContext, if_neg (by simpa using joinLines_ne_nil hne hcontext), resolveFrom,
          resolveFrom, List.isEmpty_nil, if_pos rfl, List.append_nil]
        exact congrArg (fun text => Except.ok (text, false)) (List.append_nil _)
      · rw [if_pos (by simpa using hne), joinLines_append_of_head hne hcontext]
  | cons item items ih =>
    cases item with
    | line l =>
      have hpush : pushLine (joinLines context) l = joinLines (context ++ [l]) := by
        rw [joinLines, joinLines, List.foldl_append]
        rfl
      have hhead : (context ++ [l]).head? ≠ some [] := by
        rcases context with _ | ⟨c, context⟩
        · simpa using hitems.1 rfl
        · exact hcontext
      have hne : (!(context ++ [l]).isEmpty) = true := by simp
      obtain ⟨output, houtput, htext⟩ := ih hhead (by rw [hne]; exact hitems.2) hnamed
      rw [hne] at htext
      refine ⟨output, ?_, ?_⟩
      · rw [chunksOf, hpush, houtput]
        rfl
      · rw [endsInLine, htext, replaceBlocks, List.flatMap_cons, FileItem.lines, List.append_assoc]
    | block b =>
      rw [numberedBlocks, List.forall_mem_cons] at hnamed
      obtain ⟨output, houtput, htext⟩ := ih (show [].head? ≠ some [] from nofun) hitems hnamed.2
      rw [chunksOf, resolveFrom_flushContext hcontext (List.cons_ne_nil _ _), resolveFrom]
      rw [endsInLine, replaceBlocks, List.flatMap_append, unlines_append, unlines_append]
      rw [List.nil_append, List.isEmpty_nil, Bool.not_true] at htext
      obtain ⟨⟨hname, hmeans⟩, -⟩ := hnamed
      have houtput' : resolveFrom fileSide blockSides (idx + 1) (chunksOf [] items) = _ := houtput
      rcases hchoice : choice idx with _ | chosen
      · rw [hchoice] at hname
        have hside : sideOf fileSide blockSides idx = none := hname
        rw [hside, houtput']
        refine ⟨unlines '\n' context ++ (markerText b.parsed ++ output), ?_, ?_⟩
        · rw [numberedBlocks, List.any_cons, hchoice]
          rfl
        · rw [replaceBlock, hchoice, List.append_assoc, List.append_assoc, htext,
            markerText_parsed]
          dsimp only
          rw [List.flatMap_singleton, FileItem.lines]
      · rw [hchoice] at hname hmeans
        obtain ⟨name, hside⟩ : ∃ name, sideOf fileSide blockSides idx = some name := by
          cases chosen with
          | left => exact ⟨hname.choose, hname.choose_spec.1⟩
          | right => exact ⟨hname.choose, hname.choose_spec.1⟩
          | both => exact ⟨_, hname⟩
        rw [hside] at hname hmeans
        rw [hside, houtput']
        refine ⟨unlines '\n' context ++ (unlines '\n' (b.writtenLines chosen) ++ output), ?_, ?_⟩
        · rw [numberedBlocks, List.any_cons, hchoice]
          dsimp only
          rw [chosenText_parsed hname hmeans]
          rfl
        · rw [replaceBlock, hchoice, List.append_assoc, List.append_assoc, htext]
          dsimp only
          rw [List.flatMap_map]
          simp [FileItem.lines]

theorem endsInLine_concat (afterLine : Bool) (front : List FileItem) (item : FileItem) :
    endsInLine afterLine (front ++ [item]) = endsInLine afterLine [item] := by
  induction front generalizing afterLine with
  | nil => rfl
  | cons head front ih =>
    cases head with
    | line l =>
      rw [List.cons_append, endsInLine, ih]
      cases item <;> rfl
    | block b =>
      rw [List.cons_append, endsInLine, ih]
      cases item <;> rfl

theorem replaceBlocks_concat_line (lines : BlockText → ChosenSide → List (List Char)) (idx : ℕ)
    (front : List FileItem) (l : List Char) :
    replaceBlocks lines choice idx (front ++ [.line l]) =
      replaceBlocks lines choice idx front ++ [.line l] := by
  induction front generalizing idx with
  | nil => rfl
  | cons head front ih =>
    cases head with
    | line l' => rw [List.cons_append, replaceBlocks, ih, replaceBlocks, List.cons_append]
    | block b => rw [List.cons_append, replaceBlocks, ih, replaceBlocks, List.append_assoc]

/-- Where a side is chosen, a line is written. -/
theorem replaceBlocks_ne_nil {items : List FileItem} {idx : ℕ}
    (h : (numberedBlocks idx items).any (fun p => (choice p.1).isSome) = true) :
    (replaceBlocks BlockText.writtenLines choice idx items).flatMap (·.lines) ≠ [] := by
  induction items generalizing idx with
  | nil => cases h
  | cons item items ih =>
    rw [replaceBlocks.eq_def]
    cases item with
    | line l => exact List.cons_ne_nil _ _
    | block b =>
      rw [numberedBlocks, List.any_cons, Bool.or_eq_true] at h
      dsimp only
      rw [List.flatMap_append]
      rcases h with hsome | hmore
      · obtain ⟨side, hside⟩ := Option.isSome_iff_exists.mp hsome
        have hne : b.writtenLines side ≠ [] := by
          cases side with
          | left => exact keptLines_ne_nil _
          | right => exact keptLines_ne_nil _
          | both => exact List.append_ne_nil_of_left_ne_nil (keptLines_ne_nil _) _
        dsimp only at hside
        rw [replaceBlock, hside]
        dsimp only
        rw [List.flatMap_map]
        exact List.append_ne_nil_of_left_ne_nil (by simpa [FileItem.lines] using hne) _
      · exact List.append_ne_nil_of_right_ne_nil _ (ih hmore)

/-- What is written for a file with no empty lines around its contexts. -/
theorem resolveChunks_chunksOf {items : List FileItem} (hitems : NoLeadingEmpty false items)
    (hlast : items.getLast? ≠ some (.line [])) (hfeed : ∀ l, .line l ∈ items → '\n' ∉ l)
    (hnamed : ∀ p ∈ numberedBlocks 0 items,
      IsNamed (sideOf fileSide blockSides p.1) p.2 (choice p.1) ∧
        IsUnambiguous (sideOf fileSide blockSides p.1) p.2 (choice p.1)) :
    resolveChunks fileSide blockSides (chunksOf [] items) =
      if (numberedBlocks 0 items).any fun p => (choice p.1).isSome then
        .ok (unlines '\n'
          ((replaceBlocks BlockText.writtenLines choice 0 items).flatMap (·.lines)))
      else .error .nothingResolved := by
  obtain ⟨output, houtput, htext⟩ :=
    resolveFrom_chunksOf (show [].head? ≠ some [] from nofun) hitems hnamed
  have houtput' : resolveFrom fileSide blockSides 0 (chunksOf [] items) = _ := houtput
  rw [List.nil_append, List.isEmpty_nil, Bool.not_true] at htext
  rw [resolveChunks, houtput']
  rcases hany : (numberedBlocks 0 items).any fun p => (choice p.1).isSome with _ | _
  · rfl
  · refine congrArg Except.ok ?_
    rcases List.eq_nil_or_concat items with rfl | ⟨front, item, rfl⟩
    · cases hany
    rw [List.concat_eq_append] at *
    rw [endsInLine_concat] at htext
    cases item with
    | line l =>
      rw [endsInLine, endsInLine, if_pos rfl] at htext
      rw [List.getLast?_concat] at hlast
      have hne : l ≠ [] := fun hnil => hlast (by rw [hnil])
      have houtput'' : output = unlines '\n'
          ((replaceBlocks BlockText.writtenLines choice 0 front).flatMap (·.lines)) ++ l := by
        rw [replaceBlocks_concat_line, List.flatMap_append, List.flatMap_singleton, FileItem.lines,
          unlines_append, unlines_cons, unlines_nil, ← List.append_assoc] at htext
        exact List.append_cancel_right htext
      have hend : output.getLast? ≠ some '\n' := by
        rw [houtput'', List.getLast?_append_of_ne_nil _ hne]
        exact fun hend => hfeed l (by simp) (List.mem_of_getLast? hend)
      rw [if_neg hend, htext]
    | block b =>
      rw [endsInLine, endsInLine, if_neg Bool.false_ne_true, List.append_nil] at htext
      rw [htext, getLast?_unlines (replaceBlocks_ne_nil hany), if_pos rfl]

end Write

/-! ### The text of a file -/

/-- A line without a line feed and without a carriage return at its end. -/
def IsTextLine (line : List Char) : Prop := '\n' ∉ line ∧ line.getLast? ≠ some '\r'

theorem textLines_append {lines : List (List Char)} (h : ∀ line ∈ lines, IsTextLine line)
    (rest : List Char) : textLines (unlines '\n' lines ++ rest) = lines ++ textLines rest := by
  induction lines with
  | nil => rfl
  | cons line lines ih =>
    obtain ⟨⟨hfeed, hreturn⟩, hlines⟩ := List.forall_mem_cons.mp h
    rw [unlines_cons, List.append_assoc, List.cons_append, textLines,
      splitInclusive_append_cons hfeed, List.map_cons, stripLineEnd_append, chopReturn,
      if_neg hreturn, ← textLines, ih hlines, List.cons_append]

theorem textLines_unlines {lines : List (List Char)} (h : ∀ line ∈ lines, IsTextLine line) :
    textLines (unlines '\n' lines) = lines := by
  have htext := textLines_append h []
  rwa [List.append_nil, show textLines [] = [] from rfl, List.append_nil] at htext

theorem stripLineEnd_of_not_mem {line : List Char} (h : '\n' ∉ line) :
    stripLineEnd line = line := by
  rw [stripLineEnd]
  split
  · rename_i heq
    exact absurd (List.mem_reverse.mp (heq ▸ List.mem_cons_self)) h
  · rename_i heq
    exact absurd (List.mem_reverse.mp (heq ▸ List.mem_cons_self)) h
  · rfl

/-- A file of lines: there are no markers in contents, and a last line without a line feed is not
empty. -/
structure IsFile (items : List FileItem) (trailing : Bool) : Prop where
  wellFormed : ∀ item ∈ items, item.WellFormed
  no_lineFeed : ∀ line ∈ items.flatMap (·.lines), '\n' ∉ line
  last : trailing = false → (items.flatMap (·.lines)).getLast? ≠ some []

theorem IsFile.not_mem_line {items : List FileItem} {trailing : Bool} (h : IsFile items trailing)
    (l : List Char) (hl : .line l ∈ items) : '\n' ∉ l :=
  h.no_lineFeed l (List.mem_flatMap.mpr ⟨.line l, hl, List.mem_singleton_self l⟩)

/-- No line ends in a carriage return. -/
def NoReturn (items : List FileItem) : Prop :=
  ∀ line ∈ items.flatMap (·.lines), line.getLast? ≠ some '\r'

theorem textLines_fileText {items : List FileItem} {trailing : Bool} (h : IsFile items trailing)
    (hreturn : NoReturn items) :
    textLines (fileText items trailing) = items.flatMap (·.lines) := by
  have hlines : ∀ line ∈ items.flatMap (·.lines), IsTextLine line :=
    fun line hline => ⟨h.no_lineFeed line hline, hreturn line hline⟩
  rw [fileText]
  split_ifs with htrailing
  · exact textLines_unlines hlines
  · have hlast := h.last (Bool.eq_false_iff.mpr htrailing)
    generalize items.flatMap (·.lines) = lines at hlines hlast ⊢
    rcases List.eq_nil_or_concat lines with rfl | ⟨front, last, rfl⟩
    · rfl
    · rw [List.concat_eq_append] at hlines hlast ⊢
      rw [List.forall_mem_append] at hlines
      rw [List.getLast?_concat] at hlast
      have hne : last ≠ [] := fun hnil => hlast (congrArg some hnil)
      have hfeed := (hlines.2 last (List.mem_singleton_self last)).1
      rw [intercalate_concat, textLines_append hlines.1, textLines,
        splitInclusive_of_not_mem hfeed hne, List.map_singleton, stripLineEnd_of_not_mem hfeed]

/-- What is read from the text of a file. -/
theorem parseFileConflicts_fileText {items : List FileItem} {trailing : Bool}
    (h : IsFile items trailing) (hreturn : NoReturn items) :
    parseFileConflicts (fileText items trailing) = chunksOf [] items := by
  rw [parseFileConflicts, textLines_fileText h hreturn, parseLines_items h.wellFormed]

/-! ### The other blocks -/

/-- The blocks among pieces of a file. -/
def conflictsOf (chunks : List FileChunk) : List ConflictBlock :=
  chunks.filterMap fun
    | .context _ => none
    | .conflict block => some block

/-- The blocks for which no side is chosen. -/
def leftOver (choice : ℕ → Option ChosenSide) (idx : ℕ) : List ConflictBlock → List ConflictBlock
  | [] => []
  | block :: blocks =>
    if (choice idx).isNone then block :: leftOver choice (idx + 1) blocks
    else leftOver choice (idx + 1) blocks

/-- The file is resolved: its context and the chosen sides are kept, and what is read from it again
are the other blocks. -/
def ResolvesTo (fileSide : Option (List Char)) (blockSides : List Char → Option (List Char))
    (choice : ℕ → Option ChosenSide) (items : List FileItem) (trailing : Bool) : Prop :=
  resolveChunks fileSide blockSides (parseFileConflicts (fileText items trailing)) =
      .ok (unlines '\n' (resolvedLines choice items)) ∧
    conflictsOf (parseFileConflicts (unlines '\n' (resolvedLines choice items))) =
      leftOver choice 0 (conflictsOf (parseFileConflicts (fileText items trailing)))

theorem conflictsOf_flushContext_append (context : List Char) (chunks : List FileChunk) :
    conflictsOf (flushContext context ++ chunks) = conflictsOf chunks := by
  rw [flushContext]
  split_ifs
  · rfl
  · rfl

theorem conflictsOf_chunksOf (context context' : List Char) (items : List FileItem) :
    conflictsOf (chunksOf context items) = conflictsOf (chunksOf context' items) := by
  induction items generalizing context context' with
  | nil =>
    rw [chunksOf, chunksOf, ← List.append_nil (flushContext context),
      ← List.append_nil (flushContext context'), conflictsOf_flushContext_append,
      conflictsOf_flushContext_append]
  | cons item items ih =>
    cases item with
    | line l => exact ih _ _
    | block b =>
      rw [chunksOf, chunksOf, conflictsOf_flushContext_append, conflictsOf_flushContext_append]

theorem conflictsOf_lines_append (lines : List (List Char)) (context : List Char)
    (items : List FileItem) :
    conflictsOf (chunksOf context (lines.map .line ++ items)) =
      conflictsOf (chunksOf [] items) := by
  induction lines generalizing context with
  | nil => exact conflictsOf_chunksOf context [] items
  | cons l lines ih => exact ih _

theorem parsed_written (b : BlockText) : b.written.parsed = b.parsed := by
  have hbase : joinLines b.written.baseContent = joinLines b.baseContent := by
    rw [BlockText.baseContent, BlockText.written]
    split_ifs with hempty
    · exact (List.isEmpty_iff.mp hempty).symm
    · exact joinLines_keptLines _
  rw [BlockText.parsed, hbase]
  simp only [BlockText.written, joinLines_keptLines]
  rfl

/-- The blocks that are read from the resolved file are the other ones. -/
theorem conflictsOf_replaceBlocks (choice : ℕ → Option ChosenSide) (idx : ℕ)
    (items : List FileItem) :
    conflictsOf (chunksOf [] (replaceBlocks BlockText.chosenLines choice idx items)) =
      leftOver choice idx (conflictsOf (chunksOf [] items)) := by
  induction items generalizing idx with
  | nil => rfl
  | cons item items ih =>
    cases item with
    | line l =>
      rw [replaceBlocks, chunksOf, chunksOf, conflictsOf_chunksOf (pushLine [] l) [],
        conflictsOf_chunksOf (pushLine [] l) [], ih]
    | block b =>
      have hblock : conflictsOf (chunksOf [] (.block b :: items)) =
          b.parsed :: conflictsOf (chunksOf [] items) := rfl
      rw [replaceBlocks, replaceBlock, hblock, leftOver]
      rcases choice idx with _ | side
      · have hwritten : conflictsOf (chunksOf [] (.block b.written ::
            replaceBlocks BlockText.chosenLines choice (idx + 1) items)) =
              b.written.parsed :: conflictsOf (chunksOf []
                (replaceBlocks BlockText.chosenLines choice (idx + 1) items)) := rfl
        rw [Option.isNone_none, if_pos rfl, ← ih, ← parsed_written, ← hwritten]
        rfl
      · rw [Option.isNone_some, if_neg Bool.false_ne_true, ← ih]
        exact conflictsOf_lines_append _ _ _

/-! ### The resolved file -/

/-- A part of the file with other lines is one of its lines, a line for a chosen side, or a block
written again. -/
theorem mem_replaceBlocks {lines : BlockText → ChosenSide → List (List Char)}
    {choice : ℕ → Option ChosenSide} {idx : ℕ} {items : List FileItem} {item : FileItem}
    (h : item ∈ replaceBlocks lines choice idx items) :
    (item ∈ items ∧ ∃ l, item = .line l) ∨
      ∃ b, .block b ∈ items ∧
        (item = .block b.written ∨ ∃ side, ∃ l ∈ lines b side, item = .line l) := by
  induction items generalizing idx with
  | nil => exact absurd h List.not_mem_nil
  | cons head items ih =>
    have hmore {idx : ℕ} (hmem : item ∈ replaceBlocks lines choice idx items) :
        (item ∈ head :: items ∧ ∃ l, item = .line l) ∨
          ∃ b, .block b ∈ head :: items ∧
            (item = .block b.written ∨ ∃ side, ∃ l ∈ lines b side, item = .line l) := by
      rcases ih hmem with ⟨hmem, hl⟩ | ⟨b, hmem, hb⟩
      · exact .inl ⟨List.mem_cons_of_mem _ hmem, hl⟩
      · exact .inr ⟨b, List.mem_cons_of_mem _ hmem, hb⟩
    cases head with
    | line l =>
      rcases List.mem_cons.mp h with rfl | hmem
      · exact .inl ⟨List.mem_cons_self, l, rfl⟩
      · exact hmore hmem
    | block b =>
      rcases List.mem_append.mp h with hb | hmem
      · refine .inr ⟨b, List.mem_cons_self, ?_⟩
        rw [replaceBlock] at hb
        rcases hchoice : choice idx with _ | side
        · rw [hchoice] at hb
          exact .inl (List.mem_singleton.mp hb)
        · rw [hchoice] at hb
          obtain ⟨l, hl, rfl⟩ := List.mem_map.mp hb
          exact .inr ⟨side, l, hl, rfl⟩
      · exact hmore hmem

theorem mem_chosenLines {b : BlockText} {side : ChosenSide} {line : List Char}
    (h : line ∈ b.chosenLines side) : line ∈ b.left ∨ line ∈ b.right := by
  cases side with
  | left => exact .inl h
  | right => exact .inr h
  | both => exact List.mem_append.mp h

theorem isPlainLine_nil : IsPlainLine [] := by
  intro marker hmarker hprefix
  rw [List.prefix_nil.mp hprefix] at hmarker
  exact absurd hmarker (by decide)

theorem forall_mem_keptLines {P : List Char → Prop} (hnil : P []) {lines : List (List Char)}
    (h : ∀ line ∈ lines, P line) : ∀ line ∈ keptLines lines, P line := by
  intro line hline
  rcases List.mem_cons.mp (keptLines_subset lines hline) with rfl | hmem
  · exact hnil
  · exact h line hmem

theorem BlockText.WellFormed.written {b : BlockText} (h : b.WellFormed) : b.written.WellFormed where
  leftLabel := ⟨h.leftLabel.trim_name, h.leftLabel.notMem_name, .inl rfl⟩
  rightLabel := ⟨h.rightLabel.trim_name, h.rightLabel.notMem_name, .inl rfl⟩
  left := forall_mem_keptLines isPlainLine_nil h.left
  base := by
    rw [BlockText.baseContent, BlockText.written]
    split_ifs
    · exact fun line hline => absurd hline List.not_mem_nil
    · exact forall_mem_keptLines isPlainLine_nil h.base
  right := forall_mem_keptLines isPlainLine_nil h.right

theorem wellFormed_replaceBlocks {choice : ℕ → Option ChosenSide} {items : List FileItem}
    (h : ∀ item ∈ items, item.WellFormed) {idx : ℕ} :
    ∀ item ∈ replaceBlocks BlockText.chosenLines choice idx items, item.WellFormed := by
  intro item hitem
  rcases mem_replaceBlocks hitem with ⟨hmem, -⟩ | ⟨b, hmem, rfl | ⟨side, line, hline, rfl⟩⟩
  · exact h _ hmem
  · exact BlockText.WellFormed.written (h _ hmem)
  · have hb : b.WellFormed := h _ hmem
    rcases mem_chosenLines hline with hleft | hright
    · exact hb.left line hleft leftMarker List.mem_cons_self
    · exact hb.right line hright leftMarker List.mem_cons_self

/-- A marker with a name alone is a line of text if it is one with what follows the name. -/
theorem isTextLine_marker {marker name suffix : List Char} (h : IsLabel name suffix)
    (hfeed : '\n' ∉ marker ++ ' ' :: (name ++ suffix)) :
    IsTextLine (marker ++ ' ' :: (name ++ [])) := by
  rw [List.append_nil]
  constructor
  · simp only [List.mem_append, List.mem_cons, not_or] at hfeed ⊢
    exact ⟨hfeed.1, hfeed.2.1, hfeed.2.2.1⟩
  · intro hlast
    rw [List.getLast?_append_of_ne_nil _ (List.cons_ne_nil _ _)] at hlast
    rcases List.eq_nil_or_concat name with rfl | ⟨front, c, rfl⟩
    · cases hlast
    · rw [List.concat_eq_append] at *
      rw [← List.cons_append, List.getLast?_concat, Option.some_inj] at hlast
      subst hlast
      have hend := (dropWhile_of_trim h.trim_name).2
      rw [List.reverse_concat, List.dropWhile_cons_of_pos (by decide)] at hend
      have hlength := congrArg List.length hend
      have hle := (List.dropWhile_suffix isWhitespace (l := front.reverse)).length_le
      rw [List.length_reverse, List.length_append, List.length_singleton] at hlength
      rw [List.length_reverse] at hle
      omega

theorem BlockText.WellFormed.isTextLine_written {b : BlockText} (h : b.WellFormed)
    (hlines : ∀ line ∈ b.lines, IsTextLine line) : ∀ line ∈ b.written.lines, IsTextLine line := by
  have hnil : IsTextLine [] := ⟨List.not_mem_nil, nofun⟩
  simp only [BlockText.lines, List.forall_mem_cons, List.forall_mem_append] at hlines ⊢
  obtain ⟨hopen, hleft, hbase, hsides, hright, hclose, -⟩ := hlines
  refine ⟨isTextLine_marker h.leftLabel hopen.1, forall_mem_keptLines hnil hleft, ?_, hsides,
    forall_mem_keptLines hnil hright, isTextLine_marker h.rightLabel hclose.1, nofun⟩
  rw [BlockText.baseLines, BlockText.written]
  split_ifs
  · exact fun line hline => absurd hline List.not_mem_nil
  · refine List.forall_mem_cons.mpr ⟨⟨by decide, by decide⟩, forall_mem_keptLines hnil ?_⟩
    rw [BlockText.baseLines] at hbase
    rw [BlockText.baseContent]
    rcases hb : b.base with _ | ⟨label, lines⟩
    · exact fun line hline => absurd hline List.not_mem_nil
    · rw [hb] at hbase
      exact fun line hline => hbase line (List.mem_cons_of_mem _ hline)

theorem isTextLine_replaceBlocks {lines : BlockText → ChosenSide → List (List Char)}
    {choice : ℕ → Option ChosenSide} {items : List FileItem} (h : ∀ item ∈ items, item.WellFormed)
    (hlines : ∀ line ∈ items.flatMap (·.lines), IsTextLine line)
    (hside : ∀ b side, (∀ l ∈ b.left ++ b.right, IsTextLine l) → ∀ l ∈ lines b side, IsTextLine l)
    {idx : ℕ} :
    ∀ line ∈ (replaceBlocks lines choice idx items).flatMap (·.lines), IsTextLine line := by
  intro line hline
  obtain ⟨item, hitem, hline⟩ := List.mem_flatMap.mp hline
  have hitems (item : FileItem) (hmem : item ∈ items) : ∀ line ∈ item.lines, IsTextLine line :=
    fun line hline => hlines line (List.mem_flatMap.mpr ⟨item, hmem, hline⟩)
  rcases mem_replaceBlocks hitem with ⟨hmem, -⟩ | ⟨b, hmem, rfl | ⟨side, l, hl, rfl⟩⟩
  · exact hitems item hmem line hline
  · exact (BlockText.WellFormed.isTextLine_written (h _ hmem) (hitems _ hmem)) line hline
  · rw [List.mem_singleton.mp hline]
    refine hside b side (fun l hl => hitems (.block b) hmem l (List.mem_cons_of_mem _ ?_)) l hl
    rcases List.mem_append.mp hl with hleft | hright
    · exact List.mem_append_left _ hleft
    · exact List.mem_append_right _ (List.mem_append_right _ (List.mem_cons_of_mem _
        (List.mem_append_left _ hright)))

theorem isTextLine_chosenLines (b : BlockText) (side : ChosenSide)
    (h : ∀ l ∈ b.left ++ b.right, IsTextLine l) : ∀ l ∈ b.chosenLines side, IsTextLine l :=
  fun l hl => h l (List.mem_append.mpr (mem_chosenLines hl))

theorem isTextLine_writtenLines (b : BlockText) (side : ChosenSide)
    (h : ∀ l ∈ b.left ++ b.right, IsTextLine l) : ∀ l ∈ b.writtenLines side, IsTextLine l := by
  have hnil : IsTextLine [] := ⟨List.not_mem_nil, nofun⟩
  obtain ⟨hleft, hright⟩ := List.forall_mem_append.mp h
  cases side with
  | left => exact forall_mem_keptLines hnil hleft
  | right => exact forall_mem_keptLines hnil hright
  | both =>
    refine List.forall_mem_append.mpr ⟨forall_mem_keptLines hnil hleft,
      List.forall_mem_append.mpr ⟨forall_mem_keptLines hnil hright, ?_⟩⟩
    rwa [List.forall_mem_singleton]

/-! ### When a file is resolved -/

/-- A chosen side is written as it is: both sides are not chosen, and the lines of a chosen side
begin with one that is not empty, or are one empty line. -/
def IsWrittenAsIs (b : BlockText) : Option ChosenSide → Prop
  | none => True
  | some .left => b.left = [[]] ∨ b.left ≠ [] ∧ b.left.head? ≠ some []
  | some .right => b.right = [[]] ∨ b.right ≠ [] ∧ b.right.head? ≠ some []
  | some .both => False

/-- No line of context and no line of a side is empty. -/
def NoEmptyLine (items : List FileItem) : Prop :=
  (∀ l, .line l ∈ items → l ≠ []) ∧
    ∀ b, .block b ∈ items → (∀ l ∈ b.left, l ≠ []) ∧ ∀ l ∈ b.right, l ≠ []

section Resolved

variable (fileSide : Option (List Char)) (blockSides : List Char → Option (List Char))
  (choice : ℕ → Option ChosenSide)

/-- The conditions on a file and the chosen sides. -/
structure IsKept (items : List FileItem) : Prop where
  exists_chosen : (numberedBlocks 0 items).any (fun p => (choice p.1).isSome) = true
  unambiguous : ∀ p ∈ numberedBlocks 0 items,
    IsUnambiguous (sideOf fileSide blockSides p.1) p.2 (choice p.1)
  noReturn : NoReturn items
  noLeadingEmpty : NoLeadingEmpty false items
  last : items.getLast? ≠ some (.line [])
  written : ∀ p ∈ numberedBlocks 0 items, IsWrittenAsIs p.2 (choice p.1)

variable {fileSide blockSides choice}

theorem writtenLines_of_isWrittenAsIs {b : BlockText} {side : ChosenSide}
    (h : IsWrittenAsIs b (some side)) : b.writtenLines side = b.chosenLines side := by
  cases side with
  | left => exact keptLines_eq_self_iff.mpr h
  | right => exact keptLines_eq_self_iff.mpr h
  | both => exact h.elim

theorem replaceBlocks_of_isWrittenAsIs {items : List FileItem} {idx : ℕ}
    (h : ∀ p ∈ numberedBlocks idx items, IsWrittenAsIs p.2 (choice p.1)) :
    replaceBlocks BlockText.writtenLines choice idx items =
      replaceBlocks BlockText.chosenLines choice idx items := by
  induction items generalizing idx with
  | nil => rfl
  | cons item items ih =>
    cases item with
    | line l => rw [replaceBlocks, replaceBlocks, ih h]
    | block b =>
      obtain ⟨hb, hmore⟩ := List.forall_mem_cons.mp h
      rw [replaceBlocks, replaceBlocks, ih hmore, replaceBlock, replaceBlock]
      dsimp only at hb
      rcases hchoice : choice idx with _ | side
      · rfl
      · rw [hchoice] at hb
        dsimp only
        rw [writtenLines_of_isWrittenAsIs hb]

theorem flatMap_map_line (lines : List (List Char)) :
    (lines.map FileItem.line).flatMap (·.lines) = lines := by
  rw [List.flatMap_map]
  exact List.flatMap_singleton' lines

/-- For a chosen side as many lines are written as it has, or more. -/
theorem length_writtenLines {b : BlockText}
    (h : (∀ l ∈ b.left, l ≠ []) ∧ ∀ l ∈ b.right, l ≠ []) (side : ChosenSide) :
    (b.chosenLines side).length ≤ (b.writtenLines side).length ∧
      ((b.writtenLines side).length = (b.chosenLines side).length →
        IsWrittenAsIs b (some side)) := by
  have hleft := length_keptLines h.1
  have hright := length_keptLines h.2
  have hkept {lines : List (List Char)} (hlines : ∀ l ∈ lines, l ≠ [])
      (hlength : (keptLines lines).length = lines.length) :
      lines = [[]] ∨ lines ≠ [] ∧ lines.head? ≠ some [] := by
    refine .inr ⟨?_, fun hhead => hlines [] (List.mem_of_head? hhead) rfl⟩
    rintro rfl
    cases hlength
  cases side with
  | left => exact ⟨hleft ▸ Nat.le_add_right _ _, hkept h.1⟩
  | right => exact ⟨hright ▸ Nat.le_add_right _ _, hkept h.2⟩
  | both =>
    simp only [BlockText.writtenLines, BlockText.chosenLines, List.length_append, hleft, hright,
      List.length_singleton]
    exact ⟨by omega, fun heq => by omega⟩

/-- As many lines are written as there are in the chosen sides, or more; as many only if the sides
are written as they are. -/
theorem isWrittenAsIs_of_length {items : List FileItem} (hempty : NoEmptyLine items) (idx : ℕ) :
    ((replaceBlocks BlockText.chosenLines choice idx items).flatMap (·.lines)).length ≤
        ((replaceBlocks BlockText.writtenLines choice idx items).flatMap (·.lines)).length ∧
      (((replaceBlocks BlockText.writtenLines choice idx items).flatMap (·.lines)).length =
        ((replaceBlocks BlockText.chosenLines choice idx items).flatMap (·.lines)).length →
        ∀ p ∈ numberedBlocks idx items, IsWrittenAsIs p.2 (choice p.1)) := by
  induction items generalizing idx with
  | nil => exact ⟨le_rfl, fun _ => nofun⟩
  | cons item items ih =>
    have hmore : NoEmptyLine items := ⟨fun l hl => hempty.1 l (List.mem_cons_of_mem _ hl),
      fun b hb => hempty.2 b (List.mem_cons_of_mem _ hb)⟩
    cases item with
    | line l =>
      obtain ⟨hle, hout⟩ := ih hmore idx
      rw [replaceBlocks, replaceBlocks, List.flatMap_cons, List.flatMap_cons, List.length_append,
        List.length_append]
      exact ⟨Nat.add_le_add_left hle _, fun heq => hout (Nat.add_left_cancel heq)⟩
    | block b =>
      obtain ⟨hle, hout⟩ := ih hmore (idx + 1)
      rw [replaceBlocks, replaceBlocks, List.flatMap_append, List.flatMap_append,
        List.length_append, List.length_append, numberedBlocks, List.forall_mem_cons,
        replaceBlock, replaceBlock]
      dsimp only
      rcases choice idx with _ | side
      · exact ⟨Nat.add_le_add_left hle _, fun heq => ⟨trivial, hout (Nat.add_left_cancel heq)⟩⟩
      · have hblock := length_writtenLines (hempty.2 b List.mem_cons_self) side
        rw [flatMap_map_line, flatMap_map_line]
        refine ⟨Nat.add_le_add hblock.1 hle, fun heq => ⟨hblock.2 ?_, hout ?_⟩⟩
        · omega
        · omega

theorem noLeadingEmpty_of_noEmptyLine {items : List FileItem} (h : ∀ l, .line l ∈ items → l ≠ [])
    (afterLine : Bool) : NoLeadingEmpty afterLine items := by
  induction items generalizing afterLine with
  | nil => trivial
  | cons item items ih =>
    have hmore (l : List Char) (hl : .line l ∈ items) : l ≠ [] := h l (List.mem_cons_of_mem _ hl)
    cases item with
    | line l => exact ⟨fun _ => h l List.mem_cons_self, ih hmore true⟩
    | block b => exact ih hmore false

theorem IsKept.resolvesTo {items : List FileItem} {trailing : Bool} (hfile : IsFile items trailing)
    (hnamed : ∀ p ∈ numberedBlocks 0 items,
      IsNamed (sideOf fileSide blockSides p.1) p.2 (choice p.1))
    (h : IsKept fileSide blockSides choice items) :
    ResolvesTo fileSide blockSides choice items trailing := by
  have hlines : ∀ line ∈ items.flatMap (·.lines), IsTextLine line :=
    fun line hline => ⟨hfile.no_lineFeed line hline, h.noReturn line hline⟩
  rw [ResolvesTo, parseFileConflicts_fileText hfile h.noReturn]
  constructor
  · rw [resolveChunks_chunksOf h.noLeadingEmpty h.last hfile.not_mem_line fun p hp =>
      ⟨hnamed p hp, h.unambiguous p hp⟩, if_pos h.exists_chosen,
      replaceBlocks_of_isWrittenAsIs h.written, resolvedLines]
  · rw [parseFileConflicts, resolvedLines,
      textLines_unlines (isTextLine_replaceBlocks hfile.wellFormed hlines isTextLine_chosenLines),
      parseLines_items (wellFormed_replaceBlocks hfile.wellFormed), conflictsOf_replaceBlocks]

/-- A file is resolved to its lines with the chosen sides in place of their blocks, and the other
blocks are kept, if a side is chosen by a name that is not ambiguous, no line ends in a carriage
return, no context has an empty line in front or at the end of the file, and each chosen side
begins with a line that is not empty. In a file without empty lines and carriage returns it is so
only if none of the chosen sides is empty and both sides are chosen for no block. -/
theorem resolveChunks_iff {items : List FileItem} {trailing : Bool} (hfile : IsFile items trailing)
    (hnamed : ∀ p ∈ numberedBlocks 0 items,
      IsNamed (sideOf fileSide blockSides p.1) p.2 (choice p.1)) :
    (IsKept fileSide blockSides choice items →
      ResolvesTo fileSide blockSides choice items trailing) ∧
    ((∀ p ∈ numberedBlocks 0 items,
        IsUnambiguous (sideOf fileSide blockSides p.1) p.2 (choice p.1)) →
      NoReturn items → NoEmptyLine items →
      ResolvesTo fileSide blockSides choice items trailing →
      IsKept fileSide blockSides choice items) := by
  refine ⟨fun h => h.resolvesTo hfile hnamed, fun hmeans hreturn hempty hresolves => ?_⟩
  have hlines : ∀ line ∈ items.flatMap (·.lines), IsTextLine line :=
    fun line hline => ⟨hfile.no_lineFeed line hline, hreturn line hline⟩
  have hleading := noLeadingEmpty_of_noEmptyLine hempty.1 false
  have hlast : items.getLast? ≠ some (.line []) := fun hend =>
    hempty.1 [] (List.mem_of_getLast? hend) rfl
  have hwritten := hresolves.1
  rw [parseFileConflicts_fileText hfile hreturn, resolveChunks_chunksOf hleading hlast
    hfile.not_mem_line fun p hp => ⟨hnamed p hp, hmeans p hp⟩] at hwritten
  split_ifs at hwritten with hany
  · have heq := Except.ok.inj hwritten
    rw [resolvedLines] at heq
    have hsplit := congrArg (List.splitOn '\n') heq
    rw [splitOn_unlines fun line hline => (isTextLine_replaceBlocks hfile.wellFormed hlines
        isTextLine_writtenLines line hline).1,
      splitOn_unlines fun line hline => (isTextLine_replaceBlocks hfile.wellFormed hlines
        isTextLine_chosenLines line hline).1] at hsplit
    refine ⟨hany, hmeans, hreturn, hleading, hlast, ?_⟩
    exact (isWrittenAsIs_of_length hempty 0).2
      (congrArg List.length (List.append_cancel_right hsplit))

end Resolved

section Samples

/-- A block between two lines of context. -/
private def sampleFile (left right : List (List Char)) : List FileItem :=
  [.line "before".toList,
    .block ⟨"alice".toList, " (merged workspace)".toList, left,
      some (" base".toList, ["original".toList]), right, "default".toList,
      " (local edits)".toList⟩,
    .line "after".toList]

/-- The left side is chosen for the block. -/
theorem resolveChunks_iff_left :
    ResolvesTo (some "alice".toList) (fun _ => none) (fun _ => some .left)
      (sampleFile ["one".toList, [], "two".toList] []) false := by
  have hnamed : ∀ p ∈ numberedBlocks 0 (sampleFile ["one".toList, [], "two".toList] []),
      IsNamed (sideOf (some "alice".toList) (fun _ => none) p.1) p.2 (some .left) := by
    intro p hp
    rw [List.mem_singleton.mp hp]
    exact ⟨"alice".toList, rfl, by decide +kernel⟩
  refine (resolveChunks_iff ⟨?_, by decide +kernel, by decide +kernel⟩ hnamed).1
    ⟨rfl, ?_, ?_, ⟨by decide +kernel, by decide +kernel, trivial⟩, ?_, ?_⟩
  · refine List.forall_mem_cons.mpr ⟨by unfold FileItem.WellFormed; decide +kernel,
      List.forall_mem_cons.mpr ⟨⟨⟨by decide +kernel, by decide +kernel, .inr ⟨_, rfl⟩⟩,
        ⟨by decide +kernel, by decide +kernel, .inr ⟨_, rfl⟩⟩, ?_, ?_, nofun⟩,
        List.forall_mem_singleton.mpr (by unfold FileItem.WellFormed; decide +kernel)⟩⟩
    · unfold IsPlainLine
      decide +kernel
    · unfold IsPlainLine
      decide +kernel
  · intro p hp
    rw [List.mem_singleton.mp hp]
    exact fun h => absurd (Option.some.inj h) (by decide +kernel)
  · unfold NoReturn
    decide +kernel
  · exact fun h => absurd (FileItem.line.inj (Option.some.inj h)) (by decide +kernel)
  · intro p hp
    rw [List.mem_singleton.mp hp]
    exact .inr ⟨List.cons_ne_nil _ _, by decide +kernel⟩

/-- An empty side leaves an empty line, and there is an empty line behind both sides. -/
theorem resolveChunks_changes_lines :
    (resolveChunks (some "default".toList) (fun _ => none)
        (parseFileConflicts (fileText (sampleFile ["one".toList] []) true)) =
          .ok "before\n\nafter\n".toList ∧
      unlines '\n' (resolvedLines (fun _ => some .right) (sampleFile ["one".toList] [])) =
        "before\nafter\n".toList) ∧
    resolveChunks (some "both".toList) (fun _ => none)
        (parseFileConflicts (fileText (sampleFile ["one".toList] ["two".toList]) true)) =
          .ok "before\none\ntwo\n\nafter\n".toList ∧
      unlines '\n' (resolvedLines (fun _ => some .both)
        (sampleFile ["one".toList] ["two".toList])) =
        "before\none\ntwo\nafter\n".toList := by
  decide +kernel

end Samples

end Maw
