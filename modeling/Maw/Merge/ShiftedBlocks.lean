import Maw.Library.Paragraphs
import Maw.Merge.ResolveDetail

/-!
# Blocks moved back into place

Before a merge is tried again, the blocks of a version that stand elsewhere than in the base are
moved back to where the base has them. Blocks that stand once in the version and once in the base
are anchors; the others keep to the anchor in front of them.

## Main definitions

* `splitBlocks` — the blocks of a text.
* `normalizeShiftedBlocks` — a version with its blocks in the order of the base.
-/

open Paragraphs

namespace Maw

/-! ### Blocks -/

/-- The characters that count as white space. -/
def isWhitespace (c : Char) : Bool :=
  let n := c.toNat
  (0x09 ≤ n && n ≤ 0x0D) || n = 0x20 || n = 0x85 || n = 0xA0 || n = 0x1680 ||
    (0x2000 ≤ n && n ≤ 0x200A) || n = 0x2028 || n = 0x2029 || n = 0x202F || n = 0x205F || n = 0x3000

def isBlankSegment (segment : Bytes) : Bool := (fromUtf8Lossy segment).all isWhitespace

/-- Split a text into blocks of lines, each of which ends with a blank line. -/
def splitBlocks (text : Bytes) : List Bytes := blocks 0x0A isBlankSegment text

/-- A block without the white space at its end. -/
def blockSignature (block : Bytes) : List Char :=
  ((fromUtf8Lossy block).reverse.dropWhile isWhitespace).reverse

/-- Where blocks with a signature are. -/
def positions (blocks : List Bytes) (signature : List Char) : List ℕ :=
  (blocks.zipIdx.filter fun b => blockSignature b.1 = signature).map (·.2)

/-- The place in the base of a block that stands once in each. -/
def anchorOf (baseBlocks variantBlocks : List Bytes) (block : Bytes) : Option ℕ :=
  match positions baseBlocks (blockSignature block),
    positions variantBlocks (blockSignature block) with
  | [basePos], [_] => some basePos
  | _, _ => none

/-- The last anchor up to each block, or one from before. -/
def prevAnchors (last : Option ℕ) : List (Option ℕ) → List (Option ℕ)
  | [] => []
  | anchor :: anchors => anchor.or last :: prevAnchors (anchor.or last) anchors

/-- The next anchor from each block on. -/
def nextAnchors (anchors : List (Option ℕ)) : List (Option ℕ) :=
  (prevAnchors none anchors.reverse).reverse

/-- The rank of a block by its anchor and those around it. Ranks are below the 64-bit bound at
which the code would clamp them: no list has as many blocks. -/
def blockRank (baseLength idx : ℕ) (anchor prev next : Option ℕ) : ℕ :=
  match anchor, prev, next with
  | some basePos, _, _ => basePos * 4 + 2
  | none, some prev, _ => prev * 4 + 3
  | none, none, some next => next * 4 + 1
  | none, none, none => baseLength * 4 + idx

structure RankedBlock where
  rank : ℕ
  idx : ℕ
  block : Bytes
  deriving DecidableEq

/-- The blocks with their ranks. -/
def rankedBlocks (baseLength : ℕ) (variantBlocks : List Bytes) (anchors : List (Option ℕ)) :
    List RankedBlock :=
  variantBlocks.zipIdx.map fun (block, idx) =>
    ⟨blockRank baseLength idx anchors[idx]?.join (prevAnchors none anchors)[idx]?.join
      (nextAnchors anchors)[idx]?.join, idx, block⟩

/-- The number of anchors that are not where the base has them. -/
def movedAnchorCount (anchors : List (Option ℕ)) : ℕ :=
  (anchors.zipIdx.filter fun (anchor, idx) => anchor.any (· ≠ idx)).length

/-- The blocks in the order of their ranks. -/
def sortedBlocks (ranked : List RankedBlock) : List RankedBlock :=
  ranked.insertionSort fun a b => toLex (a.rank, a.idx) ≤ toLex (b.rank, b.idx)

def normalizeShiftedBlocks (base variant : Bytes) : Option Bytes :=
  if !isUtf8 base || !isUtf8 variant then none
  else
    let baseBlocks := splitBlocks base
    let variantBlocks := splitBlocks variant
    if baseBlocks.length < 2 || variantBlocks.length < 2 then none
    else
      let anchors := variantBlocks.map (anchorOf baseBlocks variantBlocks)
      if movedAnchorCount anchors = 0 then none
      else
        let ranked := rankedBlocks baseBlocks.length variantBlocks anchors
        let normalized := (sortedBlocks ranked).flatMap (·.block)
        if normalized = variant then none else some normalized

end Maw
