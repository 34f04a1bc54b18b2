import Maw.Merge.ConflictIds

/-!
# Resolution with the atoms of conflicts

The record of a three-way conflict lists the regions that overlap, read off the text with conflict
markers. The two resolutions of a shared path are given here with these atoms; without them they are
the resolutions as they are.

## Main definitions

* `parseDiff3Atoms` — the atoms of a text with conflict markers.
* `resolveSharedPathDetail`, `resolveSharedPathWithAstDetail` — the resolutions with atoms.

## Main results

* `map_forget_resolveSharedPathDetail`, `map_forget_resolveSharedPathWithAstDetail` — what is left
  without the atoms.
-/

namespace Maw

/-! ### Texts and lines -/

section Text

/-- The number of bytes that follow the first byte of a character, and the range of the next one. -/
def followers (b : UInt8) : Option (ℕ × UInt8 × UInt8) :=
  if 0xC2 ≤ b && b ≤ 0xDF then some (1, 0x80, 0xBF)
  else if b = 0xE0 then some (2, 0xA0, 0xBF)
  else if b = 0xED then some (2, 0x80, 0x9F)
  else if 0xE1 ≤ b && b ≤ 0xEF then some (2, 0x80, 0xBF)
  else if b = 0xF0 then some (3, 0x90, 0xBF)
  else if 0xF1 ≤ b && b ≤ 0xF3 then some (3, 0x80, 0xBF)
  else if b = 0xF4 then some (3, 0x80, 0x8F)
  else none

/-- The bytes that go on with a character, up to the first that does not. -/
def takeFollowers : ℕ → UInt8 → UInt8 → Bytes → Bytes
  | count + 1, low, high, b :: bytes =>
    if low ≤ b && b ≤ high then b :: takeFollowers count 0x80 0xBF bytes else []
  | _, _, _, _ => []

def codePoint (first : UInt8) (rest : Bytes) : ℕ :=
  rest.foldl (fun n b => n * 64 + b.toNat % 64) (first.toNat % 2 ^ (6 - rest.length))

/-- The characters of a text; the start of a character that does not go on becomes U+FFFD. -/
def fromUtf8Lossy : Bytes → List Char
  | [] => []
  | b :: bytes =>
    if b < 0x80 then Char.ofNat b.toNat :: fromUtf8Lossy bytes
    else
      match followers b with
      | none => '\uFFFD' :: fromUtf8Lossy bytes
      | some (count, low, high) =>
        let rest := takeFollowers count low high bytes
        let c := if rest.length = count then Char.ofNat (codePoint b rest) else '\uFFFD'
        c :: fromUtf8Lossy (bytes.drop rest.length)
termination_by bytes => bytes.length
decreasing_by
  · simp
  · simp
  · rw [List.length_drop, List.length_cons]
    omega

/-- The lines of a text with their ends. -/
def splitInclusive : List Char → List (List Char)
  | [] => []
  | c :: cs =>
    if c = '\n' then [c] :: splitInclusive cs
    else
      match splitInclusive cs with
      | [] => [[c]]
      | line :: lines => (c :: line) :: lines

def stripLineEnd (line : List Char) : List Char :=
  match line.reverse with
  | '\n' :: '\r' :: rest | '\n' :: rest => rest.reverse
  | _ => line

def textLines (text : List Char) : List (List Char) := (splitInclusive text).map stripLineEnd

example : fromUtf8Lossy [0x61, 0xC3, 0xA9, 0xE2, 0x82, 0x62, 0xFF] =
    ['a', 'é', '\uFFFD', 'b', '\uFFFD'] := by
  simp [fromUtf8Lossy, followers, takeFollowers, codePoint]

example : textLines "a\r\nb\n\nc\r".toList = ["a".toList, "b".toList, [], "c\r".toList] := by decide

end Text

/-! ### The atoms of a text with conflict markers -/

section Atoms

/-- What one side makes of the region of an atom. -/
structure RegionEdit extends AtomEdit where
  region : Region
  deriving DecidableEq, Repr

/-- A region that both sides edit. -/
structure OverlapAtom where
  baseRegion : Region
  edits : List RegionEdit
  description : String
  deriving DecidableEq, Repr

inductive Diff3ParseState
  | context
  | ours
  | base
  | theirs
  deriving DecidableEq, Repr

/-- The lines of the current block, and where the base is. -/
structure AtomParser where
  state : Diff3ParseState := .context
  baseLine : UInt32 := 1
  blockBaseStart : UInt32 := 1
  oursLines : List (List Char) := []
  baseLines : List (List Char) := []
  theirsLines : List (List Char) := []
  atoms : List OverlapAtom := []

namespace AtomParser

variable (wsOurs wsTheirs : String)

def usizeToU32 (n : ℕ) : UInt32 := if n < 2 ^ 32 then n.toUInt32 else UInt32.ofNat (2 ^ 32 - 1)

def joinLines (lines : List (List Char)) : String :=
  "\n".intercalate (lines.map String.ofList)

/-- The atom of the block that ends. -/
def atom (s : AtomParser) : OverlapAtom :=
  let start := s.blockBaseStart
  let baseLen := usizeToU32 s.baseLines.length
  { baseRegion := .lines start (start + baseLen)
    edits :=
      [⟨⟨wsOurs, joinLines s.oursLines⟩, .lines start (start + usizeToU32 s.oursLines.length)⟩,
        ⟨⟨wsTheirs, joinLines s.theirsLines⟩,
          .lines start (start + usizeToU32 s.theirsLines.length)⟩]
    description :=
      if baseLen = 0 then "Both sides inserted content at line " ++ toString start
      else "Both sides edited lines " ++ toString start ++ ".." ++ toString (start + baseLen) }

/-- A line that is no marker. -/
def collect (s : AtomParser) (line : List Char) : AtomParser :=
  match s.state with
  | .context => { s with baseLine := s.baseLine + 1 }
  | .ours => { s with oursLines := s.oursLines ++ [line] }
  | .base => { s with baseLines := s.baseLines ++ [line] }
  | .theirs => { s with theirsLines := s.theirsLines ++ [line] }

def step (s : AtomParser) (line : List Char) : AtomParser :=
  if "<<<<<<<".toList.isPrefixOf line then
    { s with
      state := .ours
      blockBaseStart := s.baseLine
      oursLines := []
      baseLines := []
      theirsLines := [] }
  else if "|||||||".toList.isPrefixOf line && s.state = .ours then { s with state := .base }
  else if line = "=======".toList && s.state = .base then { s with state := .theirs }
  else if ">>>>>>>".toList.isPrefixOf line && s.state = .theirs then
    { s with
      atoms := s.atoms ++ [s.atom wsOurs wsTheirs]
      baseLine := s.baseLine + usizeToU32 s.baseLines.length
      state := .context }
  else s.collect line

end AtomParser

def parseDiff3Atoms (markerOutput : Bytes) (wsOurs wsTheirs : String) : List OverlapAtom :=
  ((textLines (fromUtf8Lossy markerOutput)).foldl (AtomParser.step wsOurs wsTheirs) {}).atoms

end Atoms

/-! ### The resolutions with atoms -/

section Detail

inductive DetailedOutcome
  | resolved (change : ResolvedChange)
  | conflict (record : ConflictRecord) (atoms : List OverlapAtom)
  deriving DecidableEq, Repr

def DetailedOutcome.forget : DetailedOutcome → SharedOutcome
  | resolved change => .resolved change
  | conflict record _ => .conflict record

/-- The tools, and the atoms of a merge of syntax trees that is in conflict. -/
structure DetailTools extends MergeTools where
  astAtoms : Path → (base : Bytes) → List (WorkspaceId × Bytes) → List OverlapAtom

variable (tools : DetailTools)

/-- The workspaces that stand for one side. -/
def sideLabel (ids : List WorkspaceId) : String := "+".intercalate (ids.map (·.name))

/-- The atoms of a conflict between the members of one side and a workspace. -/
def foldAtoms (members : List WorkspaceId) (theirsWs : WorkspaceId) (markerOutput : Bytes) :
    List OverlapAtom :=
  parseDiff3Atoms markerOutput (sideLabel members) theirsWs.name

/-- Repeat the merges of a path up to the first conflict, for its atoms and the workspaces in it. -/
def replayFoldAtoms (base : Bytes) (all : List WorkspaceId) :
    Bytes → List (WorkspaceId × Bytes) → List (WorkspaceId × Bytes) →
      List OverlapAtom × List WorkspaceId
  | _, _, [] => ([], all)
  | merged, oursMembers, (theirsWs, next) :: rest =>
    if merged = next then replayFoldAtoms base all merged (oursMembers ++ [(theirsWs, next)]) rest
    else
      match tools.diff3MergeBytes base merged next with
      | .ok (.clean out) => replayFoldAtoms base all out (oursMembers ++ [(theirsWs, next)]) rest
      | .ok (.conflict markerOutput) =>
        let folded := probeFoldedParticipants tools.toMergeTools base oursMembers next
        (foldAtoms folded theirsWs markerOutput, folded ++ [theirsWs])
      | .error _ => ([], all)

def recoverDiff3AtomsWithParticipants (entries : List PathEntry) (base : Option Bytes) :
    List OverlapAtom × List WorkspaceId :=
  let ids := entries.map (·.workspaceId)
  match base, ids, entries.filterMap (·.content) with
  | some base, id :: ids', first :: next :: rest =>
    replayFoldAtoms tools base ids first [(id, first)] (ids'.zip (next :: rest))
  | _, _, _ => ([], ids)

/-- What the merge algebra says about a path, with the atoms of a three-way conflict. -/
def algebraOutcome (path : Path) (entries : List PathEntry) (base : Option Bytes) :
    MergeOutcome Bytes → DetailedOutcome
  | .delete => .resolved (.delete path)
  | .upsert content => .resolved (.upsert path content)
  | .conflict .diff3Conflict =>
    let (atoms, participants) := recoverDiff3AtomsWithParticipants tools entries base
    .conflict (conflictRecord path
      (entries.filter fun e => participants.contains e.workspaceId) base .diff3Conflict) atoms
  | .conflict .addAddDifferent => .conflict (conflictRecord path entries none .addAddDifferent) []
  | .conflict .missingBase => .conflict (conflictRecord path entries none .missingBase) []
  | .conflict reason => .conflict (conflictRecord path entries base reason) []

def resolveByAlgebraDetail (path : Path) (entries : List PathEntry) (base : Option Bytes) :
    Except ResolveError DetailedOutcome := do
  let outcome ← resolveEntries (effectiveContents entries) base (diff3WithRetry tools.toMergeTools)
  return algebraOutcome tools path entries base outcome

def resolveSharedPathDetail (attrs : Option AttrsMatcher) (path : Path) (entries : List PathEntry)
    (base : Option Bytes) : Except ResolveError DetailedOutcome :=
  let hasDelete := entries.any (·.isDeletion)
  match pathMergeStrategy path attrs with
  | .diff3 => resolveByAlgebraDetail tools path entries base
  | .binary =>
    if allBlobsEqual entries then resolveByAlgebraDetail tools path entries base
    else .ok (.conflict (conflictRecord path entries base .diff3Conflict) [])
  | strategy =>
    match gitattrDriverMerge tools.toMergeTools base entries strategy with
    | some merged =>
      if hasDelete then resolveByAlgebraDetail tools path entries base
      else .ok (.resolved (.upsert path merged))
    | none => resolveByAlgebraDetail tools path entries base

/-- What a run of three-way merges leads to, with the text with markers. -/
inductive MarkedRun
  | merged (out : Bytes)
  | conflict (oursMembers : List (WorkspaceId × Bytes)) (triggerWs : WorkspaceId) (trigger : Bytes)
    (markerOutput : Bytes)
  deriving DecidableEq, Repr

def MarkedRun.forget : MarkedRun → FoldRun
  | merged out => .merged out
  | conflict oursMembers triggerWs trigger _ => .conflict oursMembers triggerWs trigger

def foldToMarkers (base : Bytes) : Bytes → List (WorkspaceId × Bytes) →
    List (WorkspaceId × Bytes) → Except ResolveError MarkedRun
  | merged, _, [] => .ok (.merged merged)
  | merged, oursMembers, (ws, next) :: rest =>
    if merged = next then foldToMarkers base merged (oursMembers ++ [(ws, next)]) rest
    else do
      match ← tools.diff3MergeBytes base merged next with
      | .clean out => foldToMarkers base out (oursMembers ++ [(ws, next)]) rest
      | .conflict markerOutput => .ok (.conflict oursMembers ws next markerOutput)

def resolveWithAstDetail (path : Path) (entries : List PathEntry) (base : Bytes)
    (variants : List (WorkspaceId × Bytes)) : Except ResolveError DetailedOutcome :=
  match variants with
  | [] => .ok (.resolved (.delete path)) -- The code indexes the first variant: it panics here.
  | (ws, first) :: rest => do
    match ← foldToMarkers tools base first [(ws, first)] rest with
    | .merged out => .ok (.resolved (.upsert path out))
    | .conflict oursMembers triggerWs trigger markerOutput =>
      let folded := probeFoldedParticipants tools.toMergeTools base oursMembers trigger
      let participants := folded ++ [triggerWs]
      let astResult : Option AstMergeResult :=
        (tools.astMerge path).map fun astMerge => astMerge base variants
      match astResult with
      | some (.clean astMerged) => .ok (.resolved (.upsert path astMerged))
      | some (.conflict editWorkspaces) =>
        let astParticipants := (editWorkspaces.filter fun w =>
          entries.any fun e => e.workspaceId = w).dedup
        let chosen := if 2 ≤ astParticipants.length then astParticipants else participants
        .ok (.conflict (participantsRecord path entries base chosen)
          (tools.astAtoms path base variants))
      | some .unsupported | none =>
        .ok (.conflict (participantsRecord path entries base participants)
          (foldAtoms folded triggerWs markerOutput))

def resolveVariantsDetail (path : Path) (entries : List PathEntry) (base : Option Bytes)
    (variants : List (WorkspaceId × Bytes)) : Except ResolveError DetailedOutcome :=
  match base with
  | none =>
    let reason : ConflictReason :=
      if entries.all fun e => e.kind = .added then .addAddDifferent else .missingBase
    .ok (.conflict (conflictRecord path entries none reason) [])
  | some base => resolveWithAstDetail tools path entries base variants

def resolveSharedPathWithAstDetail (attrs : Option AttrsMatcher) (path : Path)
    (entries : List PathEntry) (base : Option Bytes) : Except ResolveError DetailedOutcome :=
  if entries.all (·.isDeletion) then .ok (.resolved (.delete path))
  else if entries.any (·.isDeletion) then
    .ok (.conflict (conflictRecord path entries base .modifyDelete) [])
  else
    match entries.mapM (·.content) with
    | none => .ok (.conflict (conflictRecord path entries base .missingContent) [])
    | some [] => .ok (.resolved (.delete path)) -- Not reached: some change is no deletion.
    | some (first :: rest) =>
      if allBlobsEqual entries || rest.all fun c => c = first then
        .ok (.resolved (.upsert path first))
      else
        let variants := (entries.map (·.workspaceId)).zip (first :: rest)
        match pathMergeStrategy path attrs with
        | .binary => .ok (.conflict (conflictRecord path entries base .diff3Conflict) [])
        | .diff3 => resolveVariantsDetail tools path entries base variants
        | strategy =>
          match gitattrDriverMerge tools.toMergeTools base entries strategy with
          | some merged => .ok (.resolved (.upsert path merged))
          | none => resolveVariantsDetail tools path entries base variants

end Detail

/-! ### Without the atoms -/

section Forget

variable {tools : DetailTools} {attrs : Option AttrsMatcher} {path : Path}
  {entries : List PathEntry}

theorem replayFoldAtoms_snd {base : Bytes} {all : List WorkspaceId}
    {rest : List (WorkspaceId × Bytes)} : ∀ {merged : Bytes} {members : List (WorkspaceId × Bytes)},
    (replayFoldAtoms tools base all merged members rest).2 =
      replayFold tools.toMergeTools base all merged members rest := by
  induction rest with
  | nil => exact rfl
  | cons pair rest ih =>
    obtain ⟨ws, next⟩ := pair
    intro merged members
    rw [replayFoldAtoms, replayFold]
    split_ifs with heq
    · exact ih
    · cases tools.diff3MergeBytes base merged next with
      | error e => rfl
      | ok outcome =>
        cases outcome with
        | clean out => exact ih
        | conflict markers => rfl

theorem recoverDiff3AtomsWithParticipants_snd (base : Option Bytes) :
    (recoverDiff3AtomsWithParticipants tools entries base).2 =
      recoverDiff3Participants tools.toMergeTools entries base := by
  unfold recoverDiff3AtomsWithParticipants recoverDiff3Participants
  generalize entries.map (·.workspaceId) = ids
  generalize entries.filterMap (·.content) = contents
  match base, ids, contents with
  | some base, id :: ids', first :: next :: rest => exact replayFoldAtoms_snd
  | none, _, _ | some _, [], _ | some _, _ :: _, [] | some _, _ :: _, [_] => rfl

theorem map_forget_resolveByAlgebraDetail (base : Option Bytes) :
    (resolveByAlgebraDetail tools path entries base).map DetailedOutcome.forget =
      resolveByAlgebra tools.toMergeTools path entries base := by
  rw [resolveByAlgebraDetail, resolveByAlgebra]
  cases resolveEntries (effectiveContents entries) base (diff3WithRetry tools.toMergeTools) with
  | error e => rfl
  | ok outcome =>
    cases outcome with
    | conflict reason =>
      cases reason with
      | diff3Conflict =>
        rw [← recoverDiff3AtomsWithParticipants_snd]
        rfl
      | _ => rfl
    | _ => rfl

theorem map_forget_resolveSharedPathDetail (base : Option Bytes) :
    (resolveSharedPathDetail tools attrs path entries base).map DetailedOutcome.forget =
      resolveSharedPath tools.toMergeTools attrs path entries base := by
  rw [resolveSharedPathDetail, resolveSharedPath]
  cases pathMergeStrategy path attrs with
  | diff3 => exact map_forget_resolveByAlgebraDetail base
  | binary =>
    dsimp only
    split_ifs
    · exact map_forget_resolveByAlgebraDetail base
    · rfl
  | union | ours =>
    dsimp only
    cases gitattrDriverMerge tools.toMergeTools base entries _ with
    | some merged =>
      dsimp only
      split_ifs
      · exact map_forget_resolveByAlgebraDetail base
      · rfl
    | none => exact map_forget_resolveByAlgebraDetail base

theorem map_forget_foldToMarkers {base : Bytes} {rest : List (WorkspaceId × Bytes)} :
    ∀ {merged : Bytes} {members : List (WorkspaceId × Bytes)},
    (foldToMarkers tools base merged members rest).map MarkedRun.forget =
      foldToConflict tools.toMergeTools base merged members rest := by
  induction rest with
  | nil => exact rfl
  | cons pair rest ih =>
    obtain ⟨ws, next⟩ := pair
    intro merged members
    rw [foldToMarkers, foldToConflict]
    split_ifs with heq
    · exact ih
    · cases tools.diff3MergeBytes base merged next with
      | error e => rfl
      | ok outcome =>
        cases outcome with
        | clean out => exact ih
        | conflict markers => rfl

theorem map_forget_resolveWithAstDetail {base : Bytes} {variants : List (WorkspaceId × Bytes)} :
    (resolveWithAstDetail tools path entries base variants).map DetailedOutcome.forget =
      resolveWithAst tools.toMergeTools path entries base variants := by
  cases variants with
  | nil => rfl
  | cons pair rest =>
    obtain ⟨ws, first⟩ := pair
    rw [resolveWithAstDetail, resolveWithAst, ← map_forget_foldToMarkers]
    cases foldToMarkers tools base first [(ws, first)] rest with
    | error e => rfl
    | ok run =>
      cases run with
      | merged out => rfl
      | conflict members triggerWs trigger markers =>
        cases tools.astMerge path with
        | none => simp [Except.map, bind, Except.bind, MarkedRun.forget, DetailedOutcome.forget]
        | some astMerge =>
          cases hresult : astMerge base ((ws, first) :: rest) <;>
            simp [Except.map, bind, Except.bind, MarkedRun.forget, DetailedOutcome.forget, hresult]

theorem map_forget_resolveVariantsDetail {variants : List (WorkspaceId × Bytes)}
    (base : Option Bytes) :
    (resolveVariantsDetail tools path entries base variants).map DetailedOutcome.forget =
      resolveVariants tools.toMergeTools path entries base variants := by
  cases base with
  | none => rfl
  | some base => exact map_forget_resolveWithAstDetail

theorem map_forget_resolveSharedPathWithAstDetail (base : Option Bytes) :
    (resolveSharedPathWithAstDetail tools attrs path entries base).map DetailedOutcome.forget =
      resolveSharedPathWithAst tools.toMergeTools attrs path entries base := by
  rw [resolveSharedPathWithAstDetail, resolveSharedPathWithAst]
  split_ifs
  · rfl
  · rfl
  · rcases hcontents : entries.mapM (·.content) with _ | _ | ⟨first, rest⟩
    · simp only [hcontents]
      rfl
    · simp only [hcontents]
      rfl
    · simp only [hcontents]
      split_ifs
      · rfl
      · cases pathMergeStrategy path attrs with
        | binary => rfl
        | diff3 => exact map_forget_resolveVariantsDetail base
        | union | ours =>
          dsimp only
          cases gitattrDriverMerge tools.toMergeTools base entries _ with
          | some merged => rfl
          | none => exact map_forget_resolveVariantsDetail base

end Forget

end Maw
