import Mathlib.Data.Finset.Sort
import Maw.Merge.Accounting

/-!
# Merge drivers

After the resolution a build applies the merge drivers of its configuration. A driver takes the
paths that its glob matches first. The drivers ours and theirs settle a path at once; the driver
regenerate drops the conflict of its paths, and runs a command in a checkout of what is resolved
so far. A command that fails stops the build, unless its driver is not required.

## Main definitions

* `maybeApplyDriver` — what the driver of a path does with it.
* `runRegenerateDrivers` — the commands and the files that they leave.
* `applyMergeDrivers` — all drivers.
* `NothingVanishes` — the drivers lose no path.

## Main results

* `DriverRun.lookup`, `DriverRun.mem_resolved`, `DriverRun.mem_conflicts` — the changes and the
  records after the drivers.
* `applyMergeDrivers_nothingVanishes_iff` — when the drivers lose no path.
-/

open ExceptRun PointwiseFold

namespace Maw

inductive MergeDriverKind
  | regenerate
  | ours
  | theirs
  deriving DecidableEq, Repr

/-- A merge driver of the configuration. -/
structure MergeDriver where
  matchGlob : String
  kind : MergeDriverKind
  command : Option String
  required : Bool
  deriving DecidableEq, Repr

/-- A driver with its place in the configuration. -/
structure CompiledDriver where
  index : Nat
  pattern : Path → Bool
  driver : MergeDriver

structure CommandOutput where
  success : Bool
  code : Option Int
  stderr : String
  deriving DecidableEq, Repr

inductive DriverError
  | invalidGlob (glob message : String)
  | mustSetCommand (path : Path)
  | theirsRequiresOne (path : Path) (found : Nat)
  | theirsMissingContent (path : Path) (workspaceId : WorkspaceId)
  | missingCompiledDriver (index : Nat)
  | noCommand (glob : String)
  | spawn (command message : String)
  | commandFailed (touched : List Path) (command : String) (code : Option Int) (stderr : String)
  | readRegenerated (path : Path) (message : String)
  | provisional (message : String)
  | worktree (message : String)
  deriving DecidableEq, Repr

/-- The programs and libraries that the drivers call, with their answers in one run. -/
structure DriverTools where
  /-- Compile a glob. -/
  newPattern : String → Except String (Path → Bool)
  /-- Commit what is resolved so far. -/
  buildMergeCommit : List ResolvedChange → Except String GitOid
  createTempWorktree : GitOid → Except String Unit
  /-- Run the command of the driver with an index in the worktree. -/
  output : (index : Nat) → (command : String) → Except String CommandOutput
  /-- The content of a path of the worktree after the commands, if it is a file. -/
  readFile : Path → Except String (Option Bytes)
  removeTempWorktree : Except String Unit

/-! ### The drivers of the code -/

section Definitions

def defaultMergeDrivers : List MergeDriver :=
  [⟨"Cargo.lock", .regenerate, some "cargo generate-lockfile", false⟩,
    ⟨"package-lock.json", .regenerate, some "npm install --package-lock-only", false⟩]

/-- The drivers of a configuration, with a default for common lockfiles. -/
def effectiveDrivers (drivers : List MergeDriver) : List MergeDriver :=
  if drivers = [] then defaultMergeDrivers else drivers

/-- The characters with the property White_Space. -/
def isWhiteSpace (c : Char) : Bool :=
  (0x09 ≤ c.toNat && c.toNat ≤ 0x0D) || (0x2000 ≤ c.toNat && c.toNat ≤ 0x200A) ||
    [0x20, 0x85, 0xA0, 0x1680, 0x2028, 0x2029, 0x202F, 0x205F, 0x3000].contains c.toNat

def trimText (s : String) : String :=
  .ofList (((s.toList.dropWhile isWhiteSpace).reverse.dropWhile isWhiteSpace).reverse)

/-- The command of a driver, if it is not blank. -/
def MergeDriver.trimmedCommand (driver : MergeDriver) : Option String :=
  (driver.command.map trimText).filter fun cmd => cmd ≠ ""

variable (tools : DriverTools)

def compileDrivers (drivers : List MergeDriver) : Except DriverError (List CompiledDriver) :=
  drivers.zipIdx.mapM fun d =>
    match tools.newPattern d.1.matchGlob with
    | .ok pattern => .ok ⟨d.2, pattern, d.1⟩
    | .error e => .error (.invalidGlob d.1.matchGlob e)

/-- The first driver whose glob matches. -/
def selectDriver (path : Path) (compiled : List CompiledDriver) : Option CompiledDriver :=
  compiled.find? fun d => d.pattern path

def removeConflictPath (conflicts : List ConflictRecord) (path : Path) : List ConflictRecord :=
  conflicts.filter fun c => c.path ≠ path

def oursChange (path : Path) : Option Bytes → ResolvedChange
  | none => .delete path
  | some content => .upsert path content

def theirsChange (path : Path) : List PathEntry → Except DriverError ResolvedChange
  | [entry] =>
    if entry.isDeletion then .ok (.delete path)
    else
      match entry.content with
      | some content => .ok (.upsert path content)
      | none => .error (.theirsMissingContent path entry.workspaceId)
  | entries => .error (.theirsRequiresOne path entries.length)

/-- What the drivers work on. -/
structure DriverState where
  resolvedByPath : FiniteMap Path ResolvedChange
  conflicts : List ConflictRecord
  /-- The paths that the command of each driver has to write. -/
  regenerateByDriver : FiniteMap Nat (Finset Path)

/-- A later change of a path replaces an earlier one. -/
def insertChanges (m : FiniteMap Path ResolvedChange) (changes : List ResolvedChange) :
    FiniteMap Path ResolvedChange :=
  changes.foldl (fun m c => m.insert c.path c) m

/-- Settle a path with a change. -/
def DriverState.settle (st : DriverState) (path : Path) (change : ResolvedChange) : DriverState :=
  { st with
    resolvedByPath := st.resolvedByPath.insert path change
    conflicts := removeConflictPath st.conflicts path }

/-- Leave a path to a command. -/
def DriverState.regenerate (st : DriverState) (path : Path) (index : Nat) : DriverState :=
  { st with
    conflicts := removeConflictPath st.conflicts path
    regenerateByDriver := st.regenerateByDriver.insert index
      (insert path ((st.regenerateByDriver.lookup index).getD ∅)) }

def maybeApplyDriver (baseContents : FiniteMap Path Bytes) (compiled : List CompiledDriver)
    (st : DriverState) (item : Path × List PathEntry) : Except DriverError DriverState :=
  match selectDriver item.1 compiled with
  | none => .ok st
  | some d =>
    match d.driver.kind with
    | .ours => .ok (st.settle item.1 (oursChange item.1 (baseContents.lookup item.1)))
    | .theirs => do
      let change ← theirsChange item.1 item.2
      pure (st.settle item.1 change)
    | .regenerate =>
      if d.driver.trimmedCommand.isSome then .ok (st.regenerate item.1 d.index)
      else .error (.mustSetCommand item.1)

/-- Run the command of a driver, and note the driver if it succeeds. -/
def runCommand (compiled : List CompiledDriver) (succeeded : Finset Nat)
    (entry : Nat × Finset Path) : Except DriverError (Finset Nat) :=
  match compiled.find? fun d => d.index = entry.1 with
  | none => .error (.missingCompiledDriver entry.1)
  | some d =>
    match d.driver.trimmedCommand with
    | none => .error (.noCommand d.driver.matchGlob)
    | some command =>
      match tools.output entry.1 command with
      | .error e => .error (.spawn command e)
      | .ok out =>
        if out.success then .ok (insert entry.1 succeeded)
        else if d.driver.required then
          .error (.commandFailed (entry.2.sort (· ≤ ·)) command out.code (trimText out.stderr))
        else .ok succeeded -- A warning says that the normal merge is the fallback.

/-- The change of a path to what the commands left. -/
def regeneratedChange (path : Path) : Except DriverError ResolvedChange :=
  match tools.readFile path with
  | .ok (some content) => .ok (.upsert path content)
  | .ok none => .ok (.delete path)
  | .error e => .error (.readRegenerated path e)

/-- The commands of all drivers, and the changes of the paths of those that succeed. -/
def regenerateChanges (compiled : List CompiledDriver)
    (regenerateByDriver : FiniteMap Nat (Finset Path)) :
    Except DriverError (List ResolvedChange) := do
  let succeeded ← regenerateByDriver.sortedEntries.foldlM (runCommand tools compiled) ∅
  let paths := (regenerateByDriver.sortedEntries.filter fun e => e.1 ∈ succeeded).flatMap
    fun e => e.2.sort (· ≤ ·)
  let regenerated ← paths.mapM (regeneratedChange tools)
  pure (regenerated.insertionSort fun a b => a.path ≤ b.path)

def runRegenerateDrivers (candidate : GitOid) (compiled : List CompiledDriver)
    (regenerateByDriver : FiniteMap Nat (Finset Path)) :
    Except DriverError (List ResolvedChange) := do
  (tools.createTempWorktree candidate).mapError .worktree
  match regenerateChanges tools compiled regenerateByDriver, tools.removeTempWorktree with
  | .error e, _ => .error e
  | .ok _, .error e => .error (.worktree e)
  | .ok changes, .ok () => .ok changes

/-- The second phase: the changes of the paths that are left to commands. -/
def regeneratePhase (compiled : List CompiledDriver) (st : DriverState) :
    Except DriverError (FiniteMap Path ResolvedChange) :=
  if st.regenerateByDriver.sortedEntries = [] then .ok st.resolvedByPath
  else do
    let candidate ← (tools.buildMergeCommit
      (st.resolvedByPath.sortedEntries.map Prod.snd)).mapError .provisional
    let regenerated ← runRegenerateDrivers tools candidate compiled st.regenerateByDriver
    pure (insertChanges st.resolvedByPath regenerated)

/-- The state before the drivers. -/
def DriverState.start (before : ResolveResult) : DriverState :=
  ⟨insertChanges ∅ before.resolved, before.conflicts, ∅⟩

def applyMergeDrivers (drivers : List MergeDriver) (partition : PartitionResult)
    (baseContents : FiniteMap Path Bytes) (before : ResolveResult) :
    Except DriverError ResolveResult :=
  if effectiveDrivers drivers = [] then .ok before
  else do
    let compiled ← compileDrivers tools (effectiveDrivers drivers)
    let st ← partition.unique.foldlM
      (fun st u => maybeApplyDriver baseContents compiled st (u.1, [u.2])) (.start before)
    let st ← partition.shared.foldlM (maybeApplyDriver baseContents compiled) st
    let resolved ← regeneratePhase tools compiled st
    pure
      { resolved := resolved.sortedEntries.map Prod.snd
        conflicts := st.conflicts.insertionSort fun a b => a.path ≤ b.path }

end Definitions

/-! ### The changes by their paths -/

section Changes

variable {m : FiniteMap Path ResolvedChange} {changes : List ResolvedChange} {p : Path}

/-- Every change is stored under its path. -/
def KeyedByPath (m : FiniteMap Path ResolvedChange) : Prop :=
  ∀ p c, m.lookup p = some c → c.path = p

theorem KeyedByPath.insert (hm : KeyedByPath m) {c : ResolvedChange} (hc : c.path = p) :
    KeyedByPath (m.insert p c) := by
  intro q c' hq
  rw [FiniteMap.lookup_insert] at hq
  split_ifs at hq with h
  · rw [← Option.some.inj hq, h, hc]
  · exact hm q c' hq

theorem KeyedByPath.insertChanges (hm : KeyedByPath m) : KeyedByPath (insertChanges m changes) := by
  rw [Maw.insertChanges]
  induction changes generalizing m with
  | nil => exact hm
  | cons c changes ih => exact ih (hm.insert rfl)

theorem keyedByPath_empty : KeyedByPath ∅ := fun p c h => by simp at h

theorem mem_insertChanges : p ∈ insertChanges m changes ↔ p ∈ m ∨ p ∈ changes.map (·.path) := by
  rw [insertChanges]
  induction changes generalizing m with
  | nil => simp
  | cons c changes ih =>
    rw [List.foldl_cons, ih, Finmap.mem_insert, List.map_cons, List.mem_cons]
    tauto

theorem lookup_insertChanges_of_notMem (hp : p ∉ changes.map (·.path)) :
    (insertChanges m changes).lookup p = m.lookup p := by
  rw [insertChanges]
  induction changes generalizing m with
  | nil => rfl
  | cons c changes ih =>
    rw [List.map_cons, List.mem_cons, not_or] at hp
    rw [List.foldl_cons, ih hp.2, FiniteMap.lookup_insert, if_neg hp.1]

theorem KeyedByPath.map_values (hm : KeyedByPath m) :
    (m.sortedEntries.map Prod.snd).map (·.path) = m.sortedEntries.map Prod.fst := by
  rw [List.map_map]
  refine List.map_congr_left fun e he => ?_
  exact hm e.1 e.2 (FiniteMap.mem_sortedEntries.mp he)

/-- The changes of a map, inserted again. -/
theorem KeyedByPath.lookup_values (hm : KeyedByPath m) :
    (Maw.insertChanges ∅ (m.sortedEntries.map Prod.snd)).lookup p = m.lookup p := by
  have hpath : ∀ e ∈ m.sortedEntries, e.2.path = e.1 := by
    rintro ⟨q, c⟩ he
    exact hm q c (FiniteMap.mem_sortedEntries.mp he)
  rw [Maw.insertChanges, List.foldl_map, foldl_view (fun m p => Finmap.lookup p m) Prod.fst
    (fun e _ => some e.2) (fun e he m => by rw [hpath e he, Finmap.lookup_insert])
    (fun e he m q hq => by rw [hpath e he, Finmap.lookup_insert_of_ne _ (Ne.symm hq)])
    m.nodup_sortedEntries]
  cases hitem : itemAt Prod.fst m.sortedEntries p with
  | none =>
    have hnone := itemAt_eq_none.mp hitem
    rw [FiniteMap.mem_keys_sortedEntries, ← Finmap.lookup_eq_none] at hnone
    rw [hnone, Option.elim_none, Finmap.lookup_empty]
  | some e =>
    obtain ⟨q, c⟩ := e
    obtain rfl : q = p := key_of_itemAt hitem
    exact (FiniteMap.mem_sortedEntries.mp (mem_of_itemAt hitem)).symm

end Changes

/-! ### What the drivers do with one path -/

section Cells

variable {baseContents : FiniteMap Path Bytes} {compiled : List CompiledDriver}
  {st st' : DriverState} {item : Path × List PathEntry} {p q : Path} {i : Nat}

/-- What a state knows of one path. -/
@[ext]
structure PathCell where
  resolved : Option ResolvedChange
  conflicts : Set ConflictRecord
  /-- The drivers whose commands have to write the path. -/
  drivers : Set Nat

def DriverState.cell (st : DriverState) (p : Path) : PathCell :=
  ⟨st.resolvedByPath.lookup p, {c | c ∈ st.conflicts ∧ c.path = p},
    {i | p ∈ (st.regenerateByDriver.lookup i).getD ∅}⟩

namespace DriverState

theorem conflicts_removeConflictPath (conflicts : List ConflictRecord) :
    {c | c ∈ removeConflictPath conflicts p ∧ c.path = q} =
      if p = q then ∅ else {c | c ∈ conflicts ∧ c.path = q} := by
  ext c
  by_cases h : p = q
  · subst h
    simp [removeConflictPath]
  · rw [if_neg h]
    simp only [removeConflictPath, Set.mem_ofPred_eq, List.mem_filter, decide_eq_true_eq]
    constructor
    · exact fun hc => ⟨hc.1.1, hc.2⟩
    · exact fun hc => ⟨⟨hc.1, fun hp => h (hp.symm.trans hc.2)⟩, hc.2⟩

theorem cell_settle_self (c : ResolvedChange) :
    (st.settle p c).cell p = ⟨some c, ∅, (st.cell p).drivers⟩ := by
  ext1
  · exact Finmap.lookup_insert _
  · exact (conflicts_removeConflictPath _).trans (if_pos rfl)
  · rfl

theorem cell_settle_of_ne (c : ResolvedChange) (h : p ≠ q) :
    (st.settle p c).cell q = st.cell q := by
  ext1
  · exact Finmap.lookup_insert_of_ne _ (Ne.symm h)
  · exact (conflicts_removeConflictPath _).trans (if_neg h)
  · rfl

theorem drivers_regenerate : ((st.regenerate p i).cell q).drivers =
    if p = q then insert i (st.cell q).drivers else (st.cell q).drivers := by
  ext j
  simp only [cell, regenerate, FiniteMap.lookup_insert, Set.mem_ofPred_eq]
  by_cases hj : j = i
  · subst hj
    by_cases h : p = q
    · simp [h]
    · simp [h, Ne.symm h]
  · by_cases h : p = q <;> simp [h, hj]

theorem cell_regenerate_self :
    (st.regenerate p i).cell p = ⟨(st.cell p).resolved, ∅, insert i (st.cell p).drivers⟩ := by
  ext1
  · rfl
  · exact (conflicts_removeConflictPath _).trans (if_pos rfl)
  · exact drivers_regenerate.trans (if_pos rfl)

theorem cell_regenerate_of_ne (h : p ≠ q) : (st.regenerate p i).cell q = st.cell q := by
  ext1
  · rfl
  · exact (conflicts_removeConflictPath _).trans (if_neg h)
  · exact drivers_regenerate.trans (if_neg h)

theorem mem_drivers : i ∈ (st.cell p).drivers ↔
    ∃ paths, (i, paths) ∈ st.regenerateByDriver.sortedEntries ∧ p ∈ paths := by
  simp only [cell, Set.mem_ofPred_eq, FiniteMap.mem_sortedEntries]
  cases st.regenerateByDriver.lookup i <;> simp

end DriverState

theorem theirsChange_path {entries : List PathEntry} {c : ResolvedChange}
    (h : theirsChange p entries = .ok c) : c.path = p := by
  match entries with
  | [] | _ :: _ :: _ => cases h
  | [entry] =>
    rw [theirsChange] at h
    split_ifs at h
    · rw [← Except.ok.inj h]
      rfl
    · split at h
      · rw [← Except.ok.inj h]
        rfl
      · cases h

theorem oursChange_path (base : Option Bytes) : (oursChange p base).path = p := by
  cases base <;> rfl

/-- What the driver of a path may do. -/
theorem maybeApplyDriver_eq_ok (h : maybeApplyDriver baseContents compiled st item = .ok st') :
    selectDriver item.1 compiled = none ∧ st' = st ∨
      ∃ d, selectDriver item.1 compiled = some d ∧
        ((d.driver.kind ≠ .regenerate ∧ ∃ c, c.path = item.1 ∧ st' = st.settle item.1 c) ∨
          d.driver.kind = .regenerate ∧ st' = st.regenerate item.1 d.index) := by
  rw [maybeApplyDriver] at h
  cases hd : selectDriver item.1 compiled with
  | none =>
    rw [hd] at h
    exact .inl ⟨rfl, (Except.ok.inj h).symm⟩
  | some d =>
    refine .inr ⟨d, rfl, ?_⟩
    rw [hd] at h
    cases hkind : d.driver.kind with
    | ours =>
      simp only [hkind] at h
      exact .inl ⟨by simp, _, oursChange_path _, (Except.ok.inj h).symm⟩
    | theirs =>
      simp only [hkind, bind_eq_ok, pure_eq_ok] at h
      obtain ⟨c, hc, rfl⟩ := h
      exact .inl ⟨by simp, c, theirsChange_path hc, rfl⟩
    | regenerate =>
      simp only [hkind] at h
      split_ifs at h
      exact .inr ⟨rfl, (Except.ok.inj h).symm⟩

/-- What the driver of a path makes of its cell. -/
def Acts (compiled : List CompiledDriver) (p : Path) (v v' : PathCell) : Prop :=
  match selectDriver p compiled with
  | none => v' = v
  | some d => v'.conflicts = ∅ ∧
    if d.driver.kind = .regenerate then
      v'.resolved = v.resolved ∧ v'.drivers = insert d.index v.drivers
    else v'.resolved.isSome ∧ v'.drivers = v.drivers

theorem acts_of_ok (h : maybeApplyDriver baseContents compiled st item = .ok st') :
    Acts compiled item.1 (st.cell item.1) (st'.cell item.1) := by
  rw [Acts]
  obtain ⟨hd, rfl⟩ | ⟨d, hd, ⟨hkind, c, -, rfl⟩ | ⟨hkind, rfl⟩⟩ := maybeApplyDriver_eq_ok h
  · rw [hd]
  · simp [hd, hkind, DriverState.cell_settle_self]
  · simp [hd, hkind, DriverState.cell_regenerate_self]

theorem cell_of_ok (h : maybeApplyDriver baseContents compiled st item = .ok st')
    (hq : item.1 ≠ q) : st'.cell q = st.cell q := by
  obtain ⟨-, rfl⟩ | ⟨d, -, ⟨-, c, -, rfl⟩ | ⟨-, rfl⟩⟩ := maybeApplyDriver_eq_ok h
  · rfl
  · exact DriverState.cell_settle_of_ne c hq
  · exact DriverState.cell_regenerate_of_ne hq

theorem keyedByPath_of_ok (hst : KeyedByPath st.resolvedByPath)
    (h : maybeApplyDriver baseContents compiled st item = .ok st') :
    KeyedByPath st'.resolvedByPath := by
  obtain ⟨-, rfl⟩ | ⟨d, -, ⟨-, c, hc, rfl⟩ | ⟨-, rfl⟩⟩ := maybeApplyDriver_eq_ok h
  · exact hst
  · exact hst.insert hc
  · exact hst

/-- The paths of a partition with their changes. -/
def partitionItems (partition : PartitionResult) : List (Path × List PathEntry) :=
  partition.unique.map (fun u => (u.1, [u.2])) ++ partition.shared

theorem map_partitionItems (partition : PartitionResult) :
    (partitionItems partition).map Prod.fst = partitionPaths partition := by
  simp [partitionItems, partitionPaths]

/-- The first phase acts on each path of the partition once. -/
theorem cells_of_run {partition : PartitionResult} (hnodup : (partitionPaths partition).Nodup)
    (h : (partitionItems partition).foldlM (maybeApplyDriver baseContents compiled) st = .ok st')
    (p : Path) :
    if p ∈ partitionPaths partition then Acts compiled p (st.cell p) (st'.cell p)
    else st'.cell p = st.cell p := by
  rw [← map_partitionItems] at hnodup ⊢
  have hview := foldlM_view DriverState.cell Prod.fst (fun item => Acts compiled item.1)
    (fun _ _ _ => acts_of_ok) (fun _ _ _ hrun _ => cell_of_ok hrun) hnodup h p
  cases hitem : itemAt Prod.fst (partitionItems partition) p with
  | none =>
    rw [if_neg (itemAt_eq_none.mp hitem)]
    rwa [hitem] at hview
  | some item =>
    obtain rfl := key_of_itemAt hitem
    rw [if_pos (List.mem_map_of_mem (mem_of_itemAt hitem))]
    rwa [hitem] at hview

theorem keyedByPath_of_run {items : List (Path × List PathEntry)}
    (hst : KeyedByPath st.resolvedByPath)
    (h : items.foldlM (maybeApplyDriver baseContents compiled) st = .ok st') :
    KeyedByPath st'.resolvedByPath :=
  foldlM_induction (fun _ (st : DriverState) => KeyedByPath st.resolvedByPath)
    (fun _ _ _ _ => keyedByPath_of_ok) hst h

end Cells

/-! ### The commands -/

section Commands

variable {tools : DriverTools} {compiled : List CompiledDriver} {st : DriverState} {p : Path}

/-- The command of a driver returns a failure. -/
def CompiledDriver.Fails (tools : DriverTools) (d : CompiledDriver) : Prop :=
  ∃ command out, d.driver.trimmedCommand = some command ∧
    tools.output d.index command = .ok out ∧ out.success = false

/-- A command that was run: it fails only if its driver is not required, and is noted if it
succeeds. -/
def WasRun (tools : DriverTools) (compiled : List CompiledDriver) (i : Nat) (noted : Prop) : Prop :=
  ∃ d, itemAt CompiledDriver.index compiled i = some d ∧
    (d.Fails tools → d.driver.required = false) ∧ (noted ↔ ¬ d.Fails tools)

theorem runCommand_eq_ok {s s' : Finset Nat} {entry : Nat × Finset Path}
    (h : runCommand tools compiled s entry = .ok s') :
    ∃ d, itemAt CompiledDriver.index compiled entry.1 = some d ∧
      (¬ d.Fails tools ∧ s' = insert entry.1 s ∨
        d.Fails tools ∧ d.driver.required = false ∧ s' = s) := by
  rw [runCommand] at h
  cases hd : compiled.find? fun d => d.index = entry.1 with
  | none => simp [hd] at h
  | some d =>
    refine ⟨d, hd, ?_⟩
    have hindex : d.index = entry.1 := by simpa using List.find?_some hd
    cases hcommand : d.driver.trimmedCommand with
    | none => simp [hd, hcommand] at h
    | some command =>
      cases hout : tools.output entry.1 command with
      | error e => simp [hd, hcommand, hout] at h
      | ok out =>
        have hfails : d.Fails tools ↔ out.success = false := by
          simp [CompiledDriver.Fails, hindex, hcommand, hout]
        simp only [hd, hcommand, hout] at h
        split_ifs at h with hsuccess hrequired
        · exact .inl ⟨by simp [hfails, hsuccess], (Except.ok.inj h).symm⟩
        · exact .inr ⟨by simpa [hfails] using hsuccess, by simpa using hrequired,
            (Except.ok.inj h).symm⟩

/-- All commands are run, and those that succeed are noted. -/
theorem wasRun_of_mem {m : FiniteMap Nat (Finset Path)} {succeeded : Finset Nat}
    (h : m.sortedEntries.foldlM (runCommand tools compiled) ∅ = .ok succeeded) {i : Nat}
    {paths : Finset Path} (hi : (i, paths) ∈ m.sortedEntries) :
    WasRun tools compiled i (i ∈ succeeded) := by
  have hview := foldlM_view (fun (s : Finset Nat) i => i ∈ s) Prod.fst
    (fun (entry : Nat × Finset Path) before after =>
      ¬ before → WasRun tools compiled entry.1 after)
    (fun s entry s' hrun hbefore => by
      obtain ⟨d, hd, ⟨hok, rfl⟩ | ⟨hfails, hrequired, rfl⟩⟩ := runCommand_eq_ok hrun
      · exact ⟨d, hd, fun hfails => absurd hfails hok, by simp [hok]⟩
      · exact ⟨d, hd, fun _ => hrequired, by simp [hbefore, hfails]⟩)
    (fun s entry s' hrun j hj => by
      obtain ⟨d, -, ⟨-, rfl⟩ | ⟨-, -, rfl⟩⟩ := runCommand_eq_ok hrun
      · simp [Ne.symm hj]
      · rfl)
    m.nodup_sortedEntries h i
  rw [(itemAt_eq_some m.nodup_sortedEntries).mpr ⟨hi, rfl⟩] at hview
  exact hview (Finset.notMem_empty i)

theorem regeneratedChange_path {c : ResolvedChange} (h : regeneratedChange tools p = .ok c) :
    c.path = p := by
  rw [regeneratedChange] at h
  split at h
  · rw [← Except.ok.inj h]
    rfl
  · rw [← Except.ok.inj h]
    rfl
  · cases h

/-- A path that is left to a command that succeeds. -/
def Regenerated (tools : DriverTools) (compiled : List CompiledDriver) (st : DriverState)
    (p : Path) : Prop :=
  ∃ i ∈ (st.cell p).drivers, ∃ d, itemAt CompiledDriver.index compiled i = some d ∧ ¬ d.Fails tools

theorem regenerateChanges_eq_ok {changes : List ResolvedChange}
    (h : regenerateChanges tools compiled st.regenerateByDriver = .ok changes) :
    (∀ p, p ∈ changes.map (·.path) ↔ Regenerated tools compiled st p) ∧
      ∀ p, ∀ i ∈ (st.cell p).drivers, ∃ noted, WasRun tools compiled i noted := by
  rw [regenerateChanges, bind_eq_ok] at h
  obtain ⟨succeeded, hrun, h⟩ := h
  rw [bind_eq_ok] at h
  obtain ⟨regenerated, hread, h⟩ := h
  obtain rfl := pure_eq_ok.mp h
  constructor
  · intro p
    rw [((List.perm_insertionSort _ regenerated).map _).mem_iff,
      map_of_mapM (g := id) (fun _ _ => regeneratedChange_path) hread, List.map_id,
      List.mem_flatMap]
    constructor
    · rintro ⟨⟨i, paths⟩, hmem, hp⟩
      obtain ⟨hentry, hsucceeded⟩ := List.mem_filter.mp hmem
      obtain ⟨d, hd, -, hnoted⟩ := wasRun_of_mem hrun hentry
      exact ⟨i, DriverState.mem_drivers.mpr ⟨paths, hentry, (Finset.mem_sort _).mp hp⟩, d, hd,
        hnoted.mp (by simpa using hsucceeded)⟩
    · rintro ⟨i, hi, d, hd, hok⟩
      obtain ⟨paths, hentry, hp⟩ := DriverState.mem_drivers.mp hi
      obtain ⟨d', hd', -, hnoted⟩ := wasRun_of_mem hrun hentry
      obtain rfl := Option.some.inj (hd.symm.trans hd')
      exact ⟨(i, paths), List.mem_filter.mpr ⟨hentry, by simpa using hnoted.mpr hok⟩,
        (Finset.mem_sort _).mpr hp⟩
  · intro p i hi
    obtain ⟨paths, hentry, -⟩ := DriverState.mem_drivers.mp hi
    exact ⟨_, wasRun_of_mem hrun hentry⟩

/-- The second phase changes the paths that are left to commands that succeed, and no others. -/
theorem regeneratePhase_eq_ok {m : FiniteMap Path ResolvedChange}
    (hst : KeyedByPath st.resolvedByPath) (h : regeneratePhase tools compiled st = .ok m) :
    KeyedByPath m ∧ (∀ p, Regenerated tools compiled st p → p ∈ m) ∧
      (∀ p, ¬ Regenerated tools compiled st p → m.lookup p = (st.cell p).resolved) ∧
      ∀ p, ∀ i ∈ (st.cell p).drivers, ∃ noted, WasRun tools compiled i noted := by
  rw [regeneratePhase] at h
  split_ifs at h with hempty
  · obtain rfl := Except.ok.inj h
    have hnone (p : Path) (i : Nat) : i ∉ (st.cell p).drivers := by
      rw [DriverState.mem_drivers, hempty]
      simp
    exact ⟨hst, fun p ⟨i, hi, _⟩ => absurd hi (hnone p i), fun p _ => rfl,
      fun p i hi => absurd hi (hnone p i)⟩
  · rw [bind_eq_ok] at h
    obtain ⟨candidate, -, h⟩ := h
    rw [bind_eq_ok] at h
    obtain ⟨changes, hchanges, h⟩ := h
    obtain rfl := pure_eq_ok.mp h
    rw [runRegenerateDrivers, bind_eq_ok] at hchanges
    obtain ⟨-, -, hchanges⟩ := hchanges
    have hok : regenerateChanges tools compiled st.regenerateByDriver = .ok changes := by
      split at hchanges
      · cases hchanges
      · cases hchanges
      · rwa [← Except.ok.inj hchanges]
    obtain ⟨hpaths, hran⟩ := regenerateChanges_eq_ok hok
    refine ⟨hst.insertChanges, fun p hp => ?_, fun p hp => ?_, hran⟩
    · exact mem_insertChanges.mpr (.inr ((hpaths p).mpr hp))
    · exact lookup_insertChanges_of_notMem (mt (hpaths p).mp hp)

theorem compileDrivers_index {drivers : List MergeDriver}
    (h : compileDrivers tools drivers = .ok compiled) :
    (compiled.map CompiledDriver.index).Nodup := by
  have hmap : compiled.map CompiledDriver.index = drivers.zipIdx.map Prod.snd := by
    refine map_of_mapM ?_ h
    rintro ⟨driver, i⟩ d hd
    dsimp only at hd
    split at hd
    · rw [← Except.ok.inj hd]
    · cases hd
  rw [hmap, List.zipIdx_map_snd]
  exact List.nodup_range'

end Commands

/-! ### What the drivers lose -/

section Main

variable (tools : DriverTools) (drivers : List MergeDriver) (partition : PartitionResult)

/-- The driver of a path. -/
def driverOf (p : Path) : Option CompiledDriver :=
  (compileDrivers tools (effectiveDrivers drivers)).toOption.bind (selectDriver p)

/-- A path of the partition that has a driver. -/
def HasDriver (p : Path) : Prop :=
  p ∈ partitionPaths partition ∧ (driverOf tools drivers p).isSome

/-- A path of the partition that has a driver other than a command that fails. -/
def DriverSettles (p : Path) : Prop :=
  p ∈ partitionPaths partition ∧ ∃ d, driverOf tools drivers p = some d ∧
    (d.driver.kind = .regenerate → ¬ d.Fails tools)

/-- A path with a change or with a record. -/
def ResolveResult.Accounts (r : ResolveResult) (p : Path) : Prop :=
  p ∈ r.resolved.map (·.path) ∨ p ∈ r.conflicts.map (·.path)

/-- The drivers lose no path: what was in conflict or resolved still is, a command that fails
leaves the outcome of its paths, and where the file of a clash is settled the file below it is
kept. -/
structure NothingVanishes (before after : ResolveResult) : Prop where
  accounts : ∀ p, before.Accounts p → after.Accounts p
  falls_back : ∀ p ∈ partitionPaths partition, ∀ d, driverOf tools drivers p = some d →
    d.driver.kind = .regenerate → d.driver.required = false → d.Fails tools →
      (insertChanges ∅ after.resolved).lookup p = (insertChanges ∅ before.resolved).lookup p ∧
        ∀ c, c.path = p → (c ∈ after.conflicts ↔ c ∈ before.conflicts)
  keeps_children : ∀ clash ∈ partition.dfClashes,
    clash.filePath ∈ before.conflicts.map (·.path) →
      clash.filePath ∈ after.conflicts.map (·.path) ∨ after.Accounts clash.dirChildExample

/-- No command fails for a path in conflict, and where the file of a clash in conflict has a
driver, the file below it has a change, a record or a driver of its own. -/
structure DriversSettleConflicts (before : ResolveResult) : Prop where
  conflicts : ∀ c ∈ before.conflicts, HasDriver tools drivers partition c.path →
    DriverSettles tools drivers partition c.path
  children : ∀ clash ∈ partition.dfClashes, clash.filePath ∈ before.conflicts.map (·.path) →
    HasDriver tools drivers partition clash.filePath →
      before.Accounts clash.dirChildExample ∨
        DriverSettles tools drivers partition clash.dirChildExample

variable {tools drivers partition} {baseContents : FiniteMap Path Bytes}
  {before after : ResolveResult} {p : Path}

theorem effectiveDrivers_ne_nil (drivers : List MergeDriver) : effectiveDrivers drivers ≠ [] := by
  rw [effectiveDrivers]
  split_ifs with h
  · simp [defaultMergeDrivers]
  · exact h

theorem DriverState.cell_start : (DriverState.start before).cell p =
    ⟨(insertChanges ∅ before.resolved).lookup p, {c | c ∈ before.conflicts ∧ c.path = p}, ∅⟩ := by
  ext1
  · rfl
  · rfl
  · ext i
    simp [cell, start]

/-- The two phases of a run that returns. -/
structure DriverRun (tools : DriverTools) (drivers : List MergeDriver)
    (partition : PartitionResult) (before after : ResolveResult)
    (compiled : List CompiledDriver) (st : DriverState) : Prop where
  driverOf : ∀ p, driverOf tools drivers p = selectDriver p compiled
  nodup : (compiled.map CompiledDriver.index).Nodup
  cells : ∀ p, if p ∈ partitionPaths partition
    then Acts compiled p ((DriverState.start before).cell p) (st.cell p)
    else st.cell p = (DriverState.start before).cell p
  regenerated : ∀ p, Regenerated tools compiled st p → p ∈ insertChanges ∅ after.resolved
  others : ∀ p, ¬ Regenerated tools compiled st p →
    (insertChanges ∅ after.resolved).lookup p = (st.cell p).resolved
  ran : ∀ p, ∀ i ∈ (st.cell p).drivers, ∃ noted, WasRun tools compiled i noted
  conflicts : ∀ c, c ∈ after.conflicts ↔ c ∈ st.conflicts

theorem exists_driverRun (hnodup : (partitionPaths partition).Nodup)
    (h : applyMergeDrivers tools drivers partition baseContents before = .ok after) :
    ∃ compiled st, DriverRun tools drivers partition before after compiled st := by
  rw [applyMergeDrivers, if_neg (effectiveDrivers_ne_nil drivers), bind_eq_ok] at h
  obtain ⟨compiled, hcompiled, h⟩ := h
  rw [bind_eq_ok] at h
  obtain ⟨st₁, hunique, h⟩ := h
  rw [bind_eq_ok] at h
  obtain ⟨st, hshared, h⟩ := h
  rw [bind_eq_ok] at h
  obtain ⟨m, hm, h⟩ := h
  obtain rfl := pure_eq_ok.mp h
  have hrun : (partitionItems partition).foldlM (maybeApplyDriver baseContents compiled)
      (.start before) = .ok st := by
    rw [partitionItems, List.foldlM_append, List.foldlM_map, bind_eq_ok]
    exact ⟨st₁, hunique, hshared⟩
  have hkeyed : KeyedByPath (DriverState.start before).resolvedByPath :=
    keyedByPath_empty.insertChanges
  obtain ⟨hm, hregenerated, hothers, hran⟩ :=
    regeneratePhase_eq_ok (keyedByPath_of_run hkeyed hrun) hm
  refine ⟨compiled, st, ?_, compileDrivers_index hcompiled, cells_of_run hnodup hrun, ?_, ?_, hran,
    fun c => List.mem_insertionSort _⟩
  · intro p
    rw [Maw.driverOf, hcompiled]
    rfl
  · intro p hp
    rw [← Finmap.lookup_isSome, hm.lookup_values, Finmap.lookup_isSome]
    exact hregenerated p hp
  · intro p hp
    rw [hm.lookup_values, hothers p hp]

/-- The drivers leave one change of a path. -/
theorem applyMergeDrivers_nodup
    (h : applyMergeDrivers tools drivers partition baseContents before = .ok after) :
    (after.resolved.map (·.path)).Nodup := by
  rw [applyMergeDrivers, if_neg (effectiveDrivers_ne_nil drivers), bind_eq_ok] at h
  obtain ⟨compiled, -, h⟩ := h
  rw [bind_eq_ok] at h
  obtain ⟨st₁, hunique, h⟩ := h
  rw [bind_eq_ok] at h
  obtain ⟨st, hshared, h⟩ := h
  rw [bind_eq_ok] at h
  obtain ⟨m, hm, h⟩ := h
  obtain rfl := pure_eq_ok.mp h
  have hrun : (partitionItems partition).foldlM (maybeApplyDriver baseContents compiled)
      (.start before) = .ok st := by
    rw [partitionItems, List.foldlM_append, List.foldlM_map, bind_eq_ok]
    exact ⟨st₁, hunique, hshared⟩
  have hkeyed := keyedByPath_of_run keyedByPath_empty.insertChanges hrun
  have hmap := (regeneratePhase_eq_ok hkeyed hm).1.map_values
  exact hmap ▸ FiniteMap.nodup_sortedEntries m

namespace DriverRun

variable {compiled : List CompiledDriver} {st : DriverState} {i : Nat}

/-- The commands that have to write a path. -/
theorem mem_drivers_iff (h : DriverRun tools drivers partition before after compiled st) :
    i ∈ (st.cell p).drivers ↔ p ∈ partitionPaths partition ∧
      ∃ d, Maw.driverOf tools drivers p = some d ∧ d.driver.kind = .regenerate ∧ d.index = i := by
  have hcell := h.cells p
  rw [h.driverOf]
  split_ifs at hcell with hp
  · rw [Acts, DriverState.cell_start] at hcell
    cases hd : selectDriver p compiled with
    | none =>
      rw [hd] at hcell
      simp [hcell]
    | some d =>
      simp only [hd] at hcell
      obtain ⟨-, hcell⟩ := hcell
      split_ifs at hcell with hkind
      · simp [hcell, hp, hkind, eq_comm]
      · simp [hcell, hkind]
  · rw [hcell, DriverState.cell_start]
    simp [hp]

theorem itemAt_index (h : DriverRun tools drivers partition before after compiled st)
    {d : CompiledDriver} (hd : Maw.driverOf tools drivers p = some d) :
    itemAt CompiledDriver.index compiled d.index = some d := by
  rw [h.driverOf] at hd
  exact itemAt_of_mem _ h.nodup (List.mem_of_find?_eq_some hd)

theorem regenerated_iff (h : DriverRun tools drivers partition before after compiled st) :
    Regenerated tools compiled st p ↔ p ∈ partitionPaths partition ∧
      ∃ d, Maw.driverOf tools drivers p = some d ∧ d.driver.kind = .regenerate ∧
        ¬ d.Fails tools := by
  constructor
  · rintro ⟨i, hi, d, hd, hok⟩
    obtain ⟨hp, d', hd', hkind, rfl⟩ := h.mem_drivers_iff.mp hi
    obtain rfl := Option.some.inj ((h.itemAt_index hd').symm.trans hd)
    exact ⟨hp, d', hd', hkind, hok⟩
  · rintro ⟨hp, d, hd, hkind, hok⟩
    exact ⟨d.index, h.mem_drivers_iff.mpr ⟨hp, d, hd, hkind, rfl⟩, d, h.itemAt_index hd, hok⟩

/-- A command that fails in a run that returns is not required. -/
theorem not_required (h : DriverRun tools drivers partition before after compiled st)
    (hp : p ∈ partitionPaths partition) {d : CompiledDriver}
    (hd : Maw.driverOf tools drivers p = some d) (hkind : d.driver.kind = .regenerate)
    (hfails : d.Fails tools) : d.driver.required = false := by
  obtain ⟨noted, d', hd', hrequired, -⟩ :=
    h.ran p d.index (h.mem_drivers_iff.mpr ⟨hp, d, hd, hkind, rfl⟩)
  obtain rfl := Option.some.inj ((h.itemAt_index hd).symm.trans hd')
  exact hrequired hfails

/-- The drivers drop the records of the paths that they take, and no others. -/
theorem mem_conflicts (h : DriverRun tools drivers partition before after compiled st)
    (c : ConflictRecord) : c ∈ after.conflicts ↔
      c ∈ before.conflicts ∧ ¬ HasDriver tools drivers partition c.path := by
  have hcell := h.cells c.path
  have hmem : c ∈ st.conflicts ↔ c ∈ (st.cell c.path).conflicts := by simp [DriverState.cell]
  rw [h.conflicts, hmem, HasDriver, h.driverOf]
  split_ifs at hcell with hp
  · rw [Acts, DriverState.cell_start] at hcell
    cases hd : selectDriver c.path compiled with
    | none =>
      rw [hd] at hcell
      simp [hcell]
    | some d =>
      simp only [hd] at hcell
      simp [hcell.1, hp]
  · rw [hcell, DriverState.cell_start]
    simp [hp]

/-- A path that no driver settles keeps the change that it had. -/
theorem lookup (h : DriverRun tools drivers partition before after compiled st)
    (hp : ¬ DriverSettles tools drivers partition p) :
    (insertChanges ∅ after.resolved).lookup p = (insertChanges ∅ before.resolved).lookup p := by
  have hcell := h.cells p
  have hnot : ¬ Regenerated tools compiled st p := by
    rw [h.regenerated_iff]
    rintro ⟨hmem, d, hd, -, hok⟩
    exact hp ⟨hmem, d, hd, fun _ => hok⟩
  rw [h.others p hnot]
  split_ifs at hcell with hmem
  · rw [Acts, DriverState.cell_start] at hcell
    cases hd : selectDriver p compiled with
    | none =>
      rw [hd] at hcell
      rw [hcell]
    | some d =>
      simp only [hd] at hcell
      obtain ⟨-, hcell⟩ := hcell
      split_ifs at hcell with hkind
      · exact hcell.1
      · exact absurd ⟨hmem, d, (h.driverOf p).trans hd, fun hk => absurd hk hkind⟩ hp
  · rw [hcell, DriverState.cell_start]

/-- A path that a driver settles has a change. -/
theorem mem_resolved (h : DriverRun tools drivers partition before after compiled st)
    (hp : DriverSettles tools drivers partition p) : p ∈ insertChanges ∅ after.resolved := by
  obtain ⟨hmem, d, hd, hok⟩ := hp
  by_cases hkind : d.driver.kind = .regenerate
  · exact h.regenerated p (h.regenerated_iff.mpr ⟨hmem, d, hd, hkind, hok hkind⟩)
  · have hnot : ¬ Regenerated tools compiled st p := by
      rw [h.regenerated_iff]
      rintro ⟨-, d', hd', hkind', -⟩
      obtain rfl := Option.some.inj (hd.symm.trans hd')
      exact hkind hkind'
    have hcell := h.cells p
    rw [if_pos hmem, Acts, ← h.driverOf, hd] at hcell
    simp only [if_neg hkind] at hcell
    rw [← Finmap.lookup_isSome, h.others p hnot]
    exact hcell.2.1

theorem accounts_iff (h : DriverRun tools drivers partition before after compiled st) :
    after.Accounts p ↔ p ∈ before.resolved.map (·.path) ∨
      DriverSettles tools drivers partition p ∨
        p ∈ before.conflicts.map (·.path) ∧ ¬ HasDriver tools drivers partition p := by
  have hresolved (r : ResolveResult) :
      p ∈ r.resolved.map (·.path) ↔ p ∈ insertChanges ∅ r.resolved := by
    simp [mem_insertChanges, Finmap.notMem_empty]
  have hconflicts : p ∈ after.conflicts.map (·.path) ↔
      p ∈ before.conflicts.map (·.path) ∧ ¬ HasDriver tools drivers partition p := by
    simp only [List.mem_map, h.mem_conflicts]
    constructor
    · rintro ⟨c, ⟨hc, hno⟩, rfl⟩
      exact ⟨⟨c, hc, rfl⟩, hno⟩
    · rintro ⟨⟨c, hc, rfl⟩, hno⟩
      exact ⟨c, ⟨hc, hno⟩, rfl⟩
  rw [ResolveResult.Accounts, hconflicts, hresolved, hresolved, ← or_assoc]
  refine or_congr_left ?_
  by_cases hp : DriverSettles tools drivers partition p
  · simp [hp, h.mem_resolved hp]
  · rw [or_iff_left hp, ← Finmap.lookup_isSome, h.lookup hp, Finmap.lookup_isSome]

end DriverRun

/-- The drivers lose no path exactly when no command fails for a path in conflict, and the file
below a settled file of a clash is accounted for. -/
theorem applyMergeDrivers_nothingVanishes_iff {routines : SliceRoutines}
    {patchSets : List PatchSet}
    (h : applyMergeDrivers tools drivers (partitionByPath routines patchSets) baseContents before =
      .ok after) :
    NothingVanishes tools drivers (partitionByPath routines patchSets) before after ↔
      DriversSettleConflicts tools drivers (partitionByPath routines patchSets) before := by
  obtain ⟨compiled, st, hrun⟩ := exists_driverRun (partitionPaths_nodup routines patchSets) h
  constructor
  · intro hkeeps
    have hconflicts : ∀ c ∈ before.conflicts,
        HasDriver tools drivers (partitionByPath routines patchSets) c.path →
          DriverSettles tools drivers (partitionByPath routines patchSets) c.path := by
      rintro c hc ⟨hp, hsome⟩
      obtain ⟨d, hd⟩ := Option.isSome_iff_exists.mp hsome
      refine ⟨hp, d, hd, fun hkind hfails => ?_⟩
      have hrequired := hrun.not_required hp hd hkind hfails
      obtain ⟨-, hsame⟩ := hkeeps.falls_back _ hp d hd hkind hrequired hfails
      exact ((hrun.mem_conflicts c).mp ((hsame c rfl).mpr hc)).2 ⟨hp, hsome⟩
    refine ⟨hconflicts, fun clash hclash hfile hdriver => ?_⟩
    rcases hkeeps.keeps_children clash hclash hfile with hkept | hchild
    · obtain ⟨c, hc, hpath⟩ := List.mem_map.mp hkept
      exact absurd (hpath ▸ hdriver) ((hrun.mem_conflicts c).mp hc).2
    · rcases hrun.accounts_iff.mp hchild with hresolved | hsettled | ⟨hconflict, -⟩
      · exact .inl (.inl hresolved)
      · exact .inr hsettled
      · exact .inl (.inr hconflict)
  · rintro ⟨hconflicts, hchildren⟩
    have haccounts : ∀ p, before.Accounts p → after.Accounts p := by
      intro p hp
      rw [hrun.accounts_iff]
      rcases hp with hresolved | hconflict
      · exact .inl hresolved
      · by_cases hdriver : HasDriver tools drivers (partitionByPath routines patchSets) p
        · obtain ⟨c, hc, rfl⟩ := List.mem_map.mp hconflict
          exact .inr (.inl (hconflicts c hc hdriver))
        · exact .inr (.inr ⟨hconflict, hdriver⟩)
    refine ⟨haccounts, fun p hp d hd hkind _ hfails => ?_, fun clash hclash hfile => ?_⟩
    · have hnot : ¬ DriverSettles tools drivers (partitionByPath routines patchSets) p := by
        rintro ⟨-, d', hd', hok⟩
        obtain rfl := Option.some.inj (hd.symm.trans hd')
        exact hok hkind hfails
      refine ⟨hrun.lookup hnot, ?_⟩
      rintro c rfl
      rw [hrun.mem_conflicts, and_iff_left_iff_imp]
      exact fun hc hdriver => hnot (hconflicts c hc hdriver)
    · by_cases hdriver : HasDriver tools drivers (partitionByPath routines patchSets) clash.filePath
      · right
        rcases hchildren clash hclash hfile hdriver with hchild | hsettled
        · exact haccounts _ hchild
        · exact hrun.accounts_iff.mpr (.inr (.inl hsettled))
      · left
        obtain ⟨c, hc, hpath⟩ := List.mem_map.mp hfile
        exact List.mem_map.mpr ⟨c, (hrun.mem_conflicts c).mpr ⟨hc, hpath ▸ hdriver⟩, hpath⟩

end Main

section Samples

/-- The globs of these samples have no wildcards, and every command fails. -/
def failingTools : DriverTools where
  newPattern glob := .ok fun p => p.slashed = glob.toList
  buildMergeCommit _ := .ok (sampleBlob 1)
  createTempWorktree _ := .ok ()
  output _ _ := .ok ⟨false, some 101, ""⟩
  readFile _ := .ok none
  removeTempWorktree := .ok ()

private def lockPath : Path := ⟨[.lit "Cargo.lock"], by decide⟩

/-- Two workspaces add different lockfiles. -/
private def twoLocks : List PatchSet :=
  [adds "alice" [(lockPath, 1)], adds "bob" [(lockPath, 2)]]

private def lockConflict : ConflictRecord :=
  { path := lockPath
    base := none
    sides := [⟨⟨"alice"⟩, .added, some [1]⟩, ⟨⟨"bob"⟩, .added, some [2]⟩]
    reason := .addAddDifferent }

theorem applyMergeDrivers_nothingVanishes_lock :
    applyMergeDrivers failingTools [] (partitionByPath sampleRoutines twoLocks) ∅
        ⟨[], [lockConflict]⟩ = .ok ⟨[], []⟩ ∧
      (NothingVanishes failingTools [] (partitionByPath sampleRoutines twoLocks)
          ⟨[], [lockConflict]⟩ ⟨[], []⟩ ↔
        DriversSettleConflicts failingTools [] (partitionByPath sampleRoutines twoLocks)
          ⟨[], [lockConflict]⟩) := by
  have hrun : applyMergeDrivers failingTools [] (partitionByPath sampleRoutines twoLocks) ∅
      ⟨[], [lockConflict]⟩ = .ok ⟨[], []⟩ := by decide +kernel
  exact ⟨hrun, applyMergeDrivers_nothingVanishes_iff hrun⟩

/-- The file of a clash is left to the epoch. -/
private def oursDriver : List MergeDriver := [⟨"d", .ours, none, true⟩]

private def fileAndChild : List PatchSet :=
  [adds "alice" [(dirPath, 1)], adds "bob" [(inDirPath (.lit "under"), 2)]]

private def fileConflict : ConflictRecord :=
  dfClashRecord ⟨dirPath, ⟨"alice"⟩, inDirPath (.lit "under"), ⟨"bob"⟩⟩

/-- A default driver whose command fails drops the conflict of a lockfile, and the driver ours
drops the file below the file of a clash. -/
theorem drivers_lose_paths :
    (resolvePartitionWithAttrs sampleTools none (partitionByPath sampleRoutines twoLocks) ∅ =
        .ok ⟨[], [lockConflict]⟩ ∧
      applyMergeDrivers failingTools [] (partitionByPath sampleRoutines twoLocks) ∅
        ⟨[], [lockConflict]⟩ = .ok ⟨[], []⟩ ∧
      ¬ NothingVanishes failingTools [] (partitionByPath sampleRoutines twoLocks)
        ⟨[], [lockConflict]⟩ ⟨[], []⟩) ∧
    (resolvePartitionWithAttrs sampleTools none (partitionByPath sampleRoutines fileAndChild) ∅ =
        .ok ⟨[], [fileConflict]⟩ ∧
      applyMergeDrivers failingTools oursDriver (partitionByPath sampleRoutines fileAndChild) ∅
        ⟨[], [fileConflict]⟩ = .ok ⟨[.delete dirPath], []⟩ ∧
      ¬ NothingVanishes failingTools oursDriver (partitionByPath sampleRoutines fileAndChild)
        ⟨[], [fileConflict]⟩ ⟨[.delete dirPath], []⟩) := by
  refine ⟨⟨by decide +kernel, by decide +kernel, fun h => ?_⟩,
    ⟨by decide +kernel, by decide +kernel, fun h => ?_⟩⟩
  · have hkept := h.accounts lockPath (.inr (by decide))
    simp [ResolveResult.Accounts] at hkept
  · have hclash : (⟨dirPath, ⟨"alice"⟩, inDirPath (.lit "under"), ⟨"bob"⟩⟩ : DfClash) ∈
        (partitionByPath sampleRoutines fileAndChild).dfClashes := by decide +kernel
    rcases h.keeps_children _ hclash (by decide) with hfile | hresolved | hconflict
    · simp at hfile
    · revert hresolved
      decide
    · simp at hconflict

end Samples

end Maw
