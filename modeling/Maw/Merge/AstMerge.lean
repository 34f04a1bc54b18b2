import Mathlib.Data.List.Sort
import Mathlib.Data.String.Basic
import Mathlib.Data.Prod.Lex
import Maw.Core.Repo

/-!
# The structured merge

When the text merge of a source file is in conflict, the file is read as a list of top-level items.
Each variant is compared with the base item by item; items are matched by their kind and name. If
no item was changed in two ways, the merged file is put together from the base: changed items are
replaced, deleted ones are left out with the blanks behind them, added `use` declarations go behind
the last one that is left, and all other added items to the end.

The code is total up to a slice of a text at a place inside of a character and a search for an
empty text, which end the thread; there the model has no result.

## Main definitions

* `SyntaxParser` — what a parser makes of a file.
* `computeEditScript` — what a variant changed, item by item.
* `reconstructMergedFile` — the merged file.
* `tryAstMergeWithConfig` — the merge.
-/

namespace Maw.Ast

/-! ### Languages and items -/

inductive AstLanguage
  | rust
  | python
  | typeScript
  | javaScript
  | go
  deriving DecidableEq, Repr

namespace AstLanguage

/-- The kinds of nodes that are items of a file. -/
def namedItemKinds : AstLanguage → List String
  | rust => ["function_item", "struct_item", "enum_item", "union_item", "trait_item", "impl_item",
      "const_item", "static_item", "type_item", "mod_item", "macro_definition", "use_declaration",
      "extern_crate_declaration"]
  | python => ["function_definition", "class_definition", "decorated_definition"]
  | typeScript | javaScript => ["function_declaration", "class_declaration",
      "interface_declaration", "type_alias_declaration", "enum_declaration", "method_definition"]
  | go => ["function_declaration", "method_declaration", "type_declaration"]

/-- The field of a node with its name. -/
def nameField (lang : AstLanguage) (kind : String) : String :=
  if lang = rust ∧ kind = "impl_item" then "type" else "name"

end AstLanguage

/-- A node of a syntax tree: its kind, its bytes and those of its fields. -/
structure SyntaxNode where
  kind : String
  startByte : ℕ
  endByte : ℕ
  field : String → Option (ℕ × ℕ)

/-- The bytes of a file between two places. -/
def slice (source : Bytes) (start stop : ℕ) : Bytes := (source.drop start).take (stop - start)

/-- The nodes stand one behind the other between two places of a file. -/
def NodesInOrder : ℕ → ℕ → List SyntaxNode → Prop
  | cursor, length, [] => cursor ≤ length
  | cursor, length, node :: nodes =>
    cursor ≤ node.startByte ∧ node.startByte ≤ node.endByte ∧
      NodesInOrder node.endByte length nodes

/-- A parser, which gives the nodes of a file in order. -/
structure SyntaxParser where
  parse : AstLanguage → Bytes → Option (List SyntaxNode)
  inOrder : ∀ {lang source nodes}, parse lang source = some nodes →
    NodesInOrder 0 source.length nodes

/-- An item of a file. -/
structure TopLevelItem where
  kind : String
  name : Option Bytes
  startByte : ℕ
  endByte : ℕ
  content : Bytes
  deriving DecidableEq, Repr

/-- What items of two files are matched by. -/
inductive ItemKey
  | named (kind : String) (name : Bytes)
  | positional (kind : String) (index : ℕ)
  deriving DecidableEq, Repr

namespace ItemKey

def kind : ItemKey → String
  | named kind _ => kind
  | positional kind _ => kind

/-- Named keys come first; they are ordered by their kind and then by their name or index. -/
def rank : ItemKey → Bool ×ₗ List Char ×ₗ List ℕ
  | named kind name => toLex (false, toLex (kind.toList, name.map UInt8.toNat))
  | positional kind index => toLex (true, toLex (kind.toList, [index]))

theorem rank_injective : Function.Injective rank := by
  rintro (⟨kind, name⟩ | ⟨kind, index⟩) (⟨kind', name'⟩ | ⟨kind', index'⟩) h
  · obtain ⟨hkind, hname⟩ : kind.toList = kind'.toList ∧
        name.map UInt8.toNat = name'.map UInt8.toNat := by simpa [rank] using h
    rw [String.toList_inj.mp hkind,
      List.map_injective_iff.mpr (fun _ _ => UInt8.toNat_inj.mp) hname]
  · simp [rank] at h
  · simp [rank] at h
  · obtain ⟨hkind, hindex⟩ : kind.toList = kind'.toList ∧ index = index' := by
      simpa [rank] using h
    rw [String.toList_inj.mp hkind, hindex]

instance : LinearOrder ItemKey := LinearOrder.lift' rank rank_injective

end ItemKey

/-- The key of an item at an index of its file. -/
def TopLevelItem.identityKey (item : TopLevelItem) (index : ℕ) : ItemKey :=
  match item.name with
  | some name => .named item.kind name
  | none => .positional item.kind index

/-- Bytes that are text, and no bytes for others. -/
def utf8OrEmpty (bytes : Bytes) : Bytes := if isUtf8 bytes then bytes else []

def isUse (kind : String) : Bool := kind = "use_declaration" || kind = "extern_crate_declaration"

/-- The item of a node. A use has its whole text as its name. -/
def itemOfNode (lang : AstLanguage) (source : Bytes) (node : SyntaxNode) : TopLevelItem where
  kind := node.kind
  name :=
    if isUse node.kind then some (utf8OrEmpty (slice source node.startByte node.endByte))
    else (node.field (lang.nameField node.kind)).map fun range =>
      utf8OrEmpty (slice source range.1 range.2)
  startByte := node.startByte
  endByte := node.endByte
  content := slice source node.startByte node.endByte

/-- The items of a file. -/
def parseAndExtract (parser : SyntaxParser) (source : Bytes) (lang : AstLanguage) :
    Option (List TopLevelItem) :=
  (parser.parse lang source).map fun nodes =>
    (nodes.filter fun node => node.kind ∈ lang.namedItemKinds).map (itemOfNode lang source)

/-! ### Edit scripts -/

/-- A change of an item. -/
inductive ItemChange
  | modified (key : ItemKey) (baseItem variantItem : TopLevelItem)
  | added (key : ItemKey) (variantItem : TopLevelItem)
  | deleted (key : ItemKey) (baseItem : TopLevelItem)
  deriving DecidableEq, Repr

namespace ItemChange

def key : ItemChange → ItemKey
  | modified key _ _ => key
  | added key _ => key
  | deleted key _ => key

/-- What the item becomes. -/
def changeContent : ItemChange → Option Bytes
  | modified _ _ variantItem => some variantItem.content
  | added _ variantItem => some variantItem.content
  | deleted _ _ => none

def isDeleted : ItemChange → Bool
  | deleted .. => true
  | _ => false

end ItemChange

/-- The items of a file from an index on with their keys. -/
def keyedFrom (index : ℕ) : List TopLevelItem → List (ItemKey × TopLevelItem)
  | [] => []
  | item :: items => (item.identityKey index, item) :: keyedFrom (index + 1) items

/-- Of the items with a key the last one, as a map that is built item by item has it. -/
def itemMap (items : List TopLevelItem) (key : ItemKey) : Option TopLevelItem :=
  ((keyedFrom 0 items).reverse.find? fun entry => entry.1 = key).map Prod.snd

/-- The keys of a list in order, each once. -/
def keysInOrder (keys : List ItemKey) : List ItemKey := keys.dedup.insertionSort (· ≤ ·)

def itemKeys (items : List TopLevelItem) : List ItemKey :=
  keysInOrder ((keyedFrom 0 items).map Prod.fst)

/-- What a variant changed. -/
def computeEditScript (baseItems variantItems : List TopLevelItem) : List ItemChange :=
  ((itemKeys baseItems).filterMap fun key =>
    match itemMap baseItems key, itemMap variantItems key with
    | some baseItem, some variantItem =>
      if baseItem.content ≠ variantItem.content then some (.modified key baseItem variantItem)
      else none
    | some baseItem, none => some (.deleted key baseItem)
    | none, _ => none) ++
  (itemKeys variantItems).filterMap fun key =>
    match itemMap baseItems key, itemMap variantItems key with
    | none, some variantItem => some (.added key variantItem)
    | _, _ => none

/-- A change of an item by a workspace. -/
structure ItemConstraint where
  workspaceId : WorkspaceId
  change : ItemChange
  deriving DecidableEq, Repr

/-- Whether all constraints make the same of an item. -/
def allSameChange : List ItemConstraint → Bool
  | [] => true
  | constraint :: constraints =>
    constraints.all fun c => c.change.changeContent = constraint.change.changeContent

/-- The constraints of each item. -/
def constraintsByItem (constraints : List ItemConstraint) :
    List (ItemKey × List ItemConstraint) :=
  (keysInOrder (constraints.map fun c => c.change.key)).map fun key =>
    (key, constraints.filter fun c => c.change.key = key)

abbrev Resolutions := List (ItemKey × ItemConstraint)

/-- The constraints on items that all workspaces changed alike; the first workspace's is taken. -/
def resolutionsOf (grouped : List (ItemKey × List ItemConstraint)) : Resolutions :=
  grouped.filterMap fun (key, constraints) =>
    if allSameChange constraints then constraints.head?.map fun c => (key, c) else none

/-- The items that were changed in several ways. -/
def conflictsOf (grouped : List (ItemKey × List ItemConstraint)) :
    List (ItemKey × List ItemConstraint) :=
  grouped.filter fun (_, constraints) => !allSameChange constraints

def Resolutions.get (resolutions : Resolutions) (key : ItemKey) : Option ItemConstraint :=
  (resolutions.find? fun r => r.1 = key).map Prod.snd

/-! ### Text between items -/

/-- The texts between items that are not empty, from a place on. -/
def interstitialRegionsFrom (source : Bytes) : ℕ → List TopLevelItem → List Bytes
  | cursor, [] => if cursor < source.length then [source.drop cursor] else []
  | cursor, item :: items =>
    (if cursor < item.startByte then [slice source cursor item.startByte] else []) ++
      interstitialRegionsFrom source item.endByte items

def interstitialRegions (source : Bytes) (items : List TopLevelItem) : List Bytes :=
  interstitialRegionsFrom source 0 items

/-- Whether a variant changed the text between items; with more or fewer items it is taken not to
have. -/
def interstitialDiffers (base : Bytes) (baseItems : List TopLevelItem) (variant : Bytes)
    (variantItems : List TopLevelItem) : Bool :=
  if baseItems.length ≠ variantItems.length then false
  else if (interstitialRegions base baseItems).length ≠
      (interstitialRegions variant variantItems).length then true
  else ((interstitialRegions base baseItems).zip (interstitialRegions variant variantItems)).any
    fun (b, v) => b ≠ v

/-- A blank, a tab or a line break. -/
def isBlank (b : UInt8) : Bool := b = 0x20 || b = 0x09 || b = 0x0A || b = 0x0D

/-- The first place from a given one on without a blank. -/
def skipTrailingWhitespace (source : Bytes) (start : ℕ) : ℕ :=
  start + ((source.drop start).takeWhile isBlank).length

/-- The lines of a text with their line breaks. -/
def linesWithBreaks : Bytes → List Bytes
  | [] => []
  | b :: bytes =>
    if b = 0x0A then [b] :: linesWithBreaks bytes
    else
      match linesWithBreaks bytes with
      | [] => [[b]]
      | line :: lines => (b :: line) :: lines

/-- Whether two bytes are a space character. -/
def isSpaceOfTwo (b₀ b₁ : UInt8) : Bool := b₀ = 0xC2 && (b₁ = 0x85 || b₁ = 0xA0)

/-- Whether three bytes are a space character. -/
def isSpaceOfThree (b₀ b₁ b₂ : UInt8) : Bool :=
  (b₀ = 0xE1 && b₁ = 0x9A && b₂ = 0x80) ||
    (b₀ = 0xE2 && b₁ = 0x80 &&
      ((0x80 ≤ b₂ && b₂ ≤ 0x8A) || b₂ = 0xA8 || b₂ = 0xA9 || b₂ = 0xAF)) ||
    (b₀ = 0xE2 && b₁ = 0x81 && b₂ = 0x9F) || (b₀ = 0xE3 && b₁ = 0x80 && b₂ = 0x80)

/-- A text without the space characters at its start. -/
def trimStart : Bytes → Bytes
  | [] => []
  | b₀ :: rest =>
    if (0x09 ≤ b₀ && b₀ ≤ 0x0D) || b₀ = 0x20 then trimStart rest
    else
      match rest with
      | [] => [b₀]
      | b₁ :: tail =>
        if isSpaceOfTwo b₀ b₁ then trimStart tail
        else
          match tail with
          | [] => [b₀, b₁]
          | b₂ :: tail =>
            if isSpaceOfThree b₀ b₁ b₂ then trimStart tail else b₀ :: b₁ :: b₂ :: tail

/-- A line with a documentation comment or an attribute. -/
def isTriviaLine (line : Bytes) : Bool :=
  ["///", "//!", "#[", "#!["].any fun mark => mark.toUTF8.toList.isPrefixOf (trimStart line)

/-- The lines in front of an item, the nearest first, as far as they belong to it. -/
def triviaLoop : List Bytes → Bytes → Bytes
  | [], trivia => trivia
  | line :: lines, trivia =>
    if isTriviaLine line then triviaLoop lines (line ++ trivia)
    else if trimStart line = [] && trivia ≠ [] then triviaLoop lines (line ++ trivia)
    else trivia

/-- Whether a text may be sliced at a place. -/
def isCharBoundary (source : Bytes) (place : ℕ) : Bool :=
  match source[place]? with
  | some b => !isContinuation b
  | none => place = source.length

/-- The comments and attributes in front of an item. -/
def leadingTrivia (source : Bytes) (item : TopLevelItem) : Option Bytes :=
  if !isUtf8 source then some []
  else if !isCharBoundary source item.startByte then none
  else some (triviaLoop (linesWithBreaks (source.take item.startByte)).reverse [])

/-! ### The merged file -/

/-- Copy the base from a place on, with the changes of its items. -/
def copyItems (base : Bytes) (resolutions : Resolutions) :
    (index : ℕ) → List TopLevelItem → (cursor : ℕ) → (result : Bytes) → Bytes
  | _, [], cursor, result => result ++ base.drop cursor
  | index, item :: items, cursor, result =>
    let result := result ++ slice base cursor item.startByte
    match (resolutions.get (item.identityKey index)).map ItemConstraint.change with
    | some (.modified _ _ variantItem) =>
      copyItems base resolutions (index + 1) items item.endByte (result ++ variantItem.content)
    | some (.deleted _ _) =>
      copyItems base resolutions (index + 1) items (skipTrailingWhitespace base item.endByte) result
    | some (.added _ _) | none =>
      copyItems base resolutions (index + 1) items item.endByte (result ++ item.content)

/-- An item that was added, with the workspace that is taken to have added it. -/
def addedItem (resolution : ItemKey × ItemConstraint) :
    Option (WorkspaceId × ItemKey × TopLevelItem) :=
  match resolution.2.change with
  | .added key variantItem => some (resolution.2.workspaceId, key, variantItem)
  | _ => none

/-- The items that were added, in the order of their workspaces and places. -/
def addedResolutionItems (resolutions : Resolutions) :
    List (WorkspaceId × ItemKey × TopLevelItem) :=
  (resolutions.filterMap addedItem).insertionSort fun a b =>
    toLex (a.1.name, a.2.2.startByte) ≤ toLex (b.1.name, b.2.2.startByte)

/-- The last use of the base that is left. -/
def lastSurvivingUse (baseItems : List TopLevelItem) (resolutions : Resolutions) :
    Option TopLevelItem :=
  ((keyedFrom 0 baseItems).reverse.find? fun (key, item) =>
    isUse item.kind && !((resolutions.get key).any fun c => c.change.isDeleted)).map Prod.snd

/-- The first place of a text with a given part. -/
def firstMatch (part : Bytes) : Bytes → Option ℕ
  | [] => if part = [] then some 0 else none
  | b :: bytes =>
    if part.isPrefixOf (b :: bytes) then some 0 else (firstMatch part bytes).map (· + 1)

/-- Put the added uses behind the last one that is left; what was not put there is given back. -/
def insertUses (anchorUse : Option TopLevelItem)
    (addedItems : List (WorkspaceId × ItemKey × TopLevelItem)) (result : Bytes) :
    Option (Bytes × List (WorkspaceId × ItemKey × TopLevelItem)) :=
  match anchorUse with
  | none => some (result, addedItems)
  | some anchorUse =>
    let useAdds := addedItems.filter fun added => isUse added.2.2.kind
    if useAdds = [] then some (result, addedItems)
    else if anchorUse.content = [] then none
    else
      match firstMatch anchorUse.content result with
      | none => some (result, addedItems)
      | some start =>
        let pos := start + anchorUse.content.length
        some (result.take pos ++ useAdds.flatMap (fun added => 0x0A :: added.2.2.content) ++
            result.drop pos,
          addedItems.filter fun added => !isUse added.2.2.kind)

/-- A text with a line break at its end, if it has any text. -/
def breakLine (result : Bytes) : Bytes :=
  if result ≠ [] ∧ ¬[0x0A] <:+ result then result ++ [0x0A] else result

/-- A text with an empty line at its end, if it has any text. -/
def breakParagraph (result : Bytes) : Bytes :=
  let result := breakLine result
  if result ≠ [] ∧ ¬[0x0A, 0x0A] <:+ result then result ++ [0x0A] else result

/-- The variants of a merge. -/
abbrev AstVariants := List (WorkspaceId × Bytes)

/-- The comments and attributes in front of an item in the variant of a workspace. -/
def leadingTriviaOf (variants : AstVariants) (workspaceId : WorkspaceId) (item : TopLevelItem) :
    Option Bytes :=
  match variants.find? fun v => v.1 = workspaceId with
  | some (_, source) => leadingTrivia source item
  | none => some []

/-- Append an added item. -/
def appendItem (variants : AstVariants) (result : Bytes)
    (added : WorkspaceId × ItemKey × TopLevelItem) : Option Bytes :=
  (leadingTriviaOf variants added.1 added.2.2).map fun trivia =>
    breakParagraph result ++ trivia ++ added.2.2.content ++ [0x0A]

/-- The merged file. -/
def reconstructMergedFile (base : Bytes) (baseItems : List TopLevelItem)
    (resolutions : Resolutions) (variants : AstVariants) : Option Bytes :=
  (insertUses (lastSurvivingUse baseItems resolutions) (addedResolutionItems resolutions)
    (copyItems base resolutions 0 baseItems 0 [])).bind fun (result, appended) =>
      appended.foldlM (appendItem variants) result

inductive AstMergeResult
  | clean (merged : Bytes)
  | conflict (items : List (ItemKey × List ItemConstraint))
  | unsupported
  deriving DecidableEq, Repr

/-- Merge variants of a file item by item. -/
def tryAstMergeWithConfig (parser : SyntaxParser) (base : Bytes) (variants : AstVariants)
    (lang : AstLanguage) : Option AstMergeResult :=
  match parseAndExtract parser base lang with
  | none | some [] => some .unsupported
  | some baseItems =>
    match variants.mapM fun v => (parseAndExtract parser v.2 lang).map fun items => (v, items) with
    | none => some .unsupported
    | some parsed =>
      let allConstraints := parsed.flatMap fun (v, items) =>
        (computeEditScript baseItems items).map (ItemConstraint.mk v.1)
      if allConstraints = [] then some (.clean base)
      else
        let grouped := constraintsByItem allConstraints
        if conflictsOf grouped ≠ [] then some (.conflict (conflictsOf grouped))
        else if parsed.any fun (v, items) => interstitialDiffers base baseItems v.2 items then
          some .unsupported
        else
          (reconstructMergedFile base baseItems (resolutionsOf grouped) variants).map .clean

end Maw.Ast
