import Maw.Merge.LossyText
import Maw.Merge.ShiftedBlocks

/-!
# Files with conflict markers

A file with conflict markers is split into pieces of context and blocks with two sides. The blocks
for which a side is chosen are replaced by it, the others are written again with their markers.

## Main definitions

* `parseFileConflicts` — the pieces of a file.
* `resolveChunks` — the file with chosen sides in place of blocks.
-/

namespace Maw

/-! ### Names behind markers -/

def leftMarker : List Char := "<<<<<<<".toList

def middleMarker : List Char := "|||||||".toList

def sidesMarker : List Char := "=======".toList

def rightMarker : List Char := ">>>>>>>".toList

/-- A text without the white space around it. -/
def trim (text : List Char) : List Char :=
  ((text.dropWhile isWhitespace).reverse.dropWhile isWhitespace).reverse

/-- The name of a workspace behind a marker, in front of what is in parentheses. -/
def extractNameFromMarker (line : List Char) : List Char :=
  let trimmed := trim (((line.dropWhile (· = '<')).dropWhile (· = '>')).dropWhile (· = '|'))
  if '(' ∈ trimmed then trim (trimmed.takeWhile (· ≠ '(')) else trimmed

/-- Whether a name is a label or one of its parts. -/
def nameMatches (keepName label : List Char) : Bool :=
  keepName = label || (label.splitOn ',').any fun part => trim part = keepName

example : extractNameFromMarker "<<<<<<< bn-2sc3, bn-4xyz (merged workspaces)".toList =
    "bn-2sc3, bn-4xyz".toList := by decide

/-! ### Pieces of a file -/

structure ConflictBlock where
  leftName : List Char
  leftContent : List Char
  baseContent : List Char
  rightName : List Char
  rightContent : List Char
  deriving DecidableEq, Repr

inductive FileChunk
  | context (text : List Char)
  | conflict (block : ConflictBlock)
  deriving DecidableEq, Repr

/-- Add a line to a text. -/
def pushLine (text line : List Char) : List Char :=
  if text.isEmpty then line else text ++ '\n' :: line

/-- A block whose end is not read yet. -/
structure OpenBlock where
  leftName : List Char
  leftContent : List Char
  baseContent : List Char
  rightContent : List Char
  inBase : Bool
  inRight : Bool
  nestedDepth : ℕ

namespace OpenBlock

/-- A block behind its first marker. -/
def new (leftName : List Char) : OpenBlock := ⟨leftName, [], [], [], false, false, 0⟩

def pushContentLine (b : OpenBlock) (line : List Char) : OpenBlock :=
  if b.inRight then { b with rightContent := pushLine b.rightContent line }
  else if b.inBase then { b with baseContent := pushLine b.baseContent line }
  else { b with leftContent := pushLine b.leftContent line }

def close (b : OpenBlock) (rightName : List Char) : ConflictBlock :=
  ⟨b.leftName, b.leftContent, b.baseContent, rightName, b.rightContent⟩

/-- The next line of a block; the closing marker of a block inside it belongs to the content. -/
def step (b : OpenBlock) (line : List Char) : ConflictBlock ⊕ OpenBlock :=
  if leftMarker.isPrefixOf line then
    .inr ({ b with nestedDepth := b.nestedDepth + 1 }.pushContentLine line)
  else if rightMarker.isPrefixOf line then
    if b.nestedDepth = 0 then .inl (b.close (extractNameFromMarker line))
    else .inr ({ b with nestedDepth := b.nestedDepth - 1 }.pushContentLine line)
  else if b.nestedDepth = 0 && middleMarker.isPrefixOf line then .inr { b with inBase := true }
  else if b.nestedDepth = 0 && sidesMarker.isPrefixOf line then
    .inr { b with inBase := false, inRight := true }
  else .inr (b.pushContentLine line)

end OpenBlock

/-- The context so far, if there is any. -/
def flushContext (context : List Char) : List FileChunk :=
  if context.isEmpty then [] else [.context context]

/-- The pieces of lines, behind a context or in a block. A block may lack its end. -/
def parseLines (context : List Char) : Option OpenBlock → List (List Char) → List FileChunk
  | none, [] => flushContext context
  | some b, [] => [.conflict (b.close [])]
  | none, line :: lines =>
    if leftMarker.isPrefixOf line then
      flushContext context ++ parseLines [] (some (.new (extractNameFromMarker line))) lines
    else parseLines (pushLine context line) none lines
  | some b, line :: lines =>
    match b.step line with
    | .inl block => .conflict block :: parseLines [] none lines
    | .inr b => parseLines [] (some b) lines

def parseFileConflicts (content : List Char) : List FileChunk :=
  parseLines [] none (textLines content)

/-! ### Chosen sides -/

inductive ChunkError
  | sideNotFound (side blockId leftName rightName : List Char)
  | nothingResolved
  deriving DecidableEq, Repr

/-- What is written for a block whose side is chosen. -/
def chosenText (side blockId : List Char) (block : ConflictBlock) : Except ChunkError (List Char) :=
  if side = "both".toList then
    .ok (block.leftContent ++ '\n' :: (block.rightContent ++ ['\n', '\n']))
  else if nameMatches side block.leftName then .ok (block.leftContent ++ ['\n'])
  else if nameMatches side block.rightName then .ok (block.rightContent ++ ['\n'])
  else .error (.sideNotFound side blockId block.leftName block.rightName)

/-- What is written for a block that is left in conflict. -/
def markerText (block : ConflictBlock) : List Char :=
  leftMarker ++ ' ' :: (block.leftName ++ '\n' :: (block.leftContent ++ '\n' ::
    ((if block.baseContent.isEmpty then []
      else middleMarker ++ " base\n".toList ++ block.baseContent ++ ['\n']) ++
        (sidesMarker ++ '\n' :: (block.rightContent ++ '\n' ::
          (rightMarker ++ ' ' :: (block.rightName ++ ['\n'])))))))

/-- The name of a block, by its number. -/
def blockName (idx : ℕ) : List Char := "cf-".toList ++ idx.repr.toList

section Resolve

variable (fileSide : Option (List Char)) (blockSides : List Char → Option (List Char))

/-- The side chosen for a block: its own choice, or that of the file. -/
def sideOf (idx : ℕ) : Option (List Char) := (blockSides (blockName idx)).or fileSide

/-- The text of pieces, and whether a block was resolved. -/
def resolveFrom (idx : ℕ) : List FileChunk → Except ChunkError (List Char × Bool)
  | [] => .ok ([], false)
  | .context text :: chunks => do
    let (output, anyResolved) ← resolveFrom idx chunks
    .ok (text ++ (if chunks.isEmpty then [] else ['\n']) ++ output, anyResolved)
  | .conflict block :: chunks =>
    match sideOf fileSide blockSides idx with
    | some side => do
      let text ← chosenText side (blockName idx) block
      let (output, _) ← resolveFrom (idx + 1) chunks
      .ok (text ++ output, true)
    | none => do
      let (output, anyResolved) ← resolveFrom (idx + 1) chunks
      .ok (markerText block ++ output, anyResolved)

/-- The file with the chosen sides in place of blocks, with a line feed at its end. -/
def resolveChunks (chunks : List FileChunk) : Except ChunkError (List Char) := do
  let (output, anyResolved) ← resolveFrom fileSide blockSides 0 chunks
  if anyResolved then
    .ok (if output.getLast? = some '\n' then output else output ++ ['\n'])
  else .error .nothingResolved

end Resolve

end Maw
