import Mathlib.Data.Finset.Card
import Maw.Core.Commits
import Maw.Recovery.RecoveryRefs

/-!
# The audit after the epoch was moved

Before the epoch is moved, the HEAD and the base of every workspace are captured; afterwards an
audit looks for the commits that each of the other workspaces had. HEAD is looked for below the tips
of the repository. Where it is not, the commits count as replayed when the workspace is above the new
epoch by as many commits as it was above its base.

## Main definitions

* `AuditRepo.capture`, `AuditRepo.audit` — the capture and the audit.
* `Step` — what happens between them: refs and HEADs are moved, commits are made, and workspaces are
  rebased.
* `Vouches` — the audit reports a workspace exactly where it should.
* `Outnumbered` — the commits that were left out are not made up for by others.

## Main results

* `vouches_iff` — the audit vouches for a workspace exactly when commits that were left out are not
  made up for.
* `not_vouches_of_run` — a commit without parents is left out by a rebase, another one is made, and
  the audit reports nothing.
-/

namespace Maw.Audit

/-- What the auditor sees of a repository. HEADs, the epoch and the bases are stored commits. -/
structure AuditRepo where
  commits : CommitStore
  ancestry : AncestryTest commits
  epochCurrent : Option GitOid
  branchTip : Option GitOid
  recovery : RefStore
  /-- The HEADs of the worktrees, where they can be read. -/
  heads : FiniteMap String GitOid
  /-- The bases that are recorded. -/
  wsEpochs : FiniteMap String GitOid
  epoch_mem : ∀ oid, epochCurrent = some oid → oid ∈ commits.nodes
  heads_mem : ∀ name oid, heads.lookup name = some oid → oid ∈ commits.nodes
  wsEpochs_mem : ∀ name oid, wsEpochs.lookup name = some oid → oid ∈ commits.nodes

/-- What a workspace was before the epoch was moved. -/
@[ext]
structure CapturedWorkspace where
  name : String
  head : GitOid
  baseEpoch : GitOid
  deriving DecidableEq, Repr

structure PreCapture where
  enabled : Bool
  entries : List CapturedWorkspace
  deriving DecidableEq, Repr

def PreCapture.disabled : PreCapture := ⟨false, []⟩

structure Orphan where
  workspace : String
  oid : GitOid
  /-- The ref that was pinned, if that succeeded. -/
  recoveryRef : Option String
  deriving DecidableEq, Repr

structure AuditReport where
  siblingsChecked : ℕ
  orphaned : List Orphan
  enabled : Bool
  opLabel : String
  deriving DecidableEq, Repr

def AuditReport.disabled : AuditReport := ⟨0, [], false, ""⟩

/-- The workspaces that are reported. -/
def AuditReport.names (report : AuditReport) : List String := report.orphaned.map Orphan.workspace

namespace AuditRepo

variable (repo : AuditRepo)

/-- HEAD, and the base that is recorded; else HEAD is the base. -/
def captureOne (name : String) : Option CapturedWorkspace :=
  (repo.heads.lookup name).map fun head => ⟨name, head, (repo.wsEpochs.lookup name).getD head⟩

/-- Capture the workspaces that can be listed. -/
def capture (auditOn : Bool) (listed : Option (List String)) : PreCapture :=
  match auditOn, listed with
  | true, some names => ⟨true, names.filterMap repo.captureOne⟩
  | _, _ => .disabled

def isAncestor (ancestor descendant : GitOid) : Bool :=
  ancestor = descendant || repo.ancestry.isAncestor ancestor descendant

/-- The commits that one tip has and the other one does not have. -/
def range (base tip : GitOid) : Finset GitOid :=
  repo.commits.nodes.keys.filter fun c =>
    repo.ancestry.isAncestor c tip = true ∧ ¬ repo.ancestry.isAncestor c base = true

/-- How many commits one tip is ahead of the other one, in 32 bits. -/
def countBetween (base tip : GitOid) : Option ℕ :=
  if base = tip then some 0
  else if base ∈ repo.commits.nodes ∧ tip ∈ repo.commits.nodes then
    some (min (repo.range base tip).card (2 ^ 32 - 1))
  else none

/-- At least as many commits are on top of the new epoch as were on top of the base. -/
def isReplayed (head base : GitOid) (current newEpoch : Option GitOid) : Bool :=
  match current, newEpoch with
  | some c, some e =>
    c ≠ e && repo.isAncestor e c &&
      match repo.countBetween e c, repo.countBetween base head with
      | some after, some before => before ≤ after
      | _, _ => false
  | _, _ => false

def isPreserved (head base : GitOid) (current newEpoch : Option GitOid) (anchors : List GitOid) :
    Bool :=
  current.any (repo.isAncestor head) || anchors.any (repo.isAncestor head) ||
    repo.isReplayed head base current newEpoch

/-- The tips that are the same for all workspaces; the recovery refs are listed in some order. -/
def sharedAnchors (recoveryRefs : List (String × GitOid)) : List GitOid :=
  repo.epochCurrent.toList ++ repo.branchTip.toList ++ recoveryRefs.map Prod.snd

/-- Look at one workspace; a pin may fail. -/
def auditOne (subjects : List String) (recoveryRefs : List (String × GitOid))
    (pin : CapturedWorkspace → Option String) (r : AuditReport × RefStore)
    (entry : CapturedWorkspace) : AuditReport × RefStore :=
  if entry.name ∈ subjects then r
  else
    let report := { r.1 with siblingsChecked := r.1.siblingsChecked + 1 }
    if entry.baseEpoch = entry.head then (report, r.2)
    else if repo.isPreserved entry.head entry.baseEpoch (repo.heads.lookup entry.name)
        repo.epochCurrent (repo.sharedAnchors recoveryRefs) then (report, r.2)
    else
      ({ report with orphaned := report.orphaned ++ [⟨entry.name, entry.head, pin entry⟩] },
        match pin entry with
        | none => r.2
        | some refName => r.2.insert refName entry.head)

/-- The report of an audit, and the recovery refs after it. -/
def audit (pre : PreCapture) (subjects : List String) (opLabel : String)
    (recoveryRefs : List (String × GitOid)) (pin : CapturedWorkspace → Option String) :
    AuditReport × RefStore :=
  if pre.enabled then
    pre.entries.foldl (repo.auditOne subjects recoveryRefs pin)
      (⟨0, [], true, opLabel⟩, repo.recovery)
  else (.disabled, repo.recovery)

end AuditRepo

/-! ### What happens meanwhile -/

/-- The repository, and which commits were made as replays of which. -/
structure MutState where
  repo : AuditRepo
  copies : Set (GitOid × GitOid)

/-- A rebase replays some of the commits that it walks over, each on top of the last one. A merge
keeps its other parents. -/
inductive Replay : CommitStore → Set (GitOid × GitOid) → GitOid → List GitOid → List GitOid →
    CommitStore → Set (GitOid × GitOid) → GitOid → Prop
  | done (commits : CommitStore) (copies : Set (GitOid × GitOid)) (tip : GitOid) :
      Replay commits copies tip [] [] commits copies tip
  | skip {commits commits' : CommitStore} {copies copies' : Set (GitOid × GitOid)}
      {tip tip' c : GitOid} {todo kept : List GitOid}
      (h : Replay commits copies tip todo kept commits' copies' tip') :
      Replay commits copies tip (c :: todo) kept commits' copies' tip'
  | copy {commits commits₁ commits' : CommitStore} {copies copies' : Set (GitOid × GitOid)}
      {tip tip' c oid : GitOid} {todo kept : List GitOid} {original commit : Commit}
      (hc : commits.nodes.lookup c = some original) (hroot : original.parents ≠ [])
      (hparents : commit.parents = tip :: original.parents.tail)
      (hadds : commits.Adds oid commit commits₁)
      (h : Replay commits₁ (insert (c, oid) copies) oid todo kept commits' copies' tip') :
      Replay commits copies tip (c :: todo) (c :: kept) commits' copies' tip'

/-- A workspace is rebased onto an epoch. -/
structure Rebases (s s' : MutState) (name : String) (base head epoch tip : GitOid)
    (walked kept : List GitOid) : Prop where
  head_eq : s.repo.heads.lookup name = some head
  walked_nodup : walked.Nodup
  mem_walked : ∀ c, c ∈ walked ↔ c ∈ s.repo.range base head
  epoch_mem : epoch ∈ s.repo.commits.nodes
  replay : Replay s.repo.commits s.copies epoch walked kept s'.repo.commits s'.copies tip
  heads_eq : s'.repo.heads = s.repo.heads.insert name tip

/-- Refs and HEADs are moved, a commit is made in a workspace, or a workspace is rebased. -/
inductive Step (s s' : MutState) : Prop
  | move (hcommits : s'.repo.commits = s.repo.commits) (hcopies : s'.copies = s.copies)
  | commit (name : String) (oid : GitOid) (commit : Commit)
      (hparent : commit.parents.head? = s.repo.heads.lookup name)
      (hadds : s.repo.commits.Adds oid commit s'.repo.commits)
      (hheads : s'.repo.heads = s.repo.heads.insert name oid) (hcopies : s'.copies = s.copies)
  | rebase (name : String) (base head epoch tip : GitOid) (walked kept : List GitOid)
      (h : Rebases s s' name base head epoch tip walked kept)

abbrev Run : MutState → MutState → Prop := Relation.ReflTransGen Step

/-- The tips of the repository and the HEAD of a workspace. -/
def AuditRepo.Tip (repo : AuditRepo) (name : String) (tip : GitOid) : Prop :=
  repo.epochCurrent = some tip ∨ repo.branchTip = some tip ∨
    (∃ refName, repo.recovery.lookup refName = some tip ∧
      recoveryPrefix.toList <+: refName.toList) ∨ repo.heads.lookup name = some tip

/-- A commit was replayed as another one, perhaps by way of others. -/
def MutState.ReplayedAs (s : MutState) : GitOid → GitOid → Prop :=
  Relation.TransGen fun x y => (x, y) ∈ s.copies

/-- A commit is below a tip, or was replayed as one that is below HEAD. -/
def MutState.Kept (s : MutState) (name : String) (x : GitOid) : Prop :=
  (∃ tip, s.repo.Tip name tip ∧ s.repo.commits.IsAncestor x tip) ∨
    ∃ y c, s.ReplayedAs x y ∧ s.repo.heads.lookup name = some c ∧ s.repo.commits.IsAncestor y c

/-- The workspace was rebased from its base onto the epoch of the audit, with all of its commits, and
HEAD is at or above the last one. -/
def RebasedAll (pre post : MutState) (entry : CapturedWorkspace) : Prop :=
  ∃ s s' epoch tip c walked, Run pre s ∧ walked ≠ [] ∧
    Rebases s s' entry.name entry.baseEpoch entry.head epoch tip walked walked ∧ Run s' post ∧
      post.repo.epochCurrent = some epoch ∧ post.repo.heads.lookup entry.name = some c ∧
        post.repo.commits.IsAncestor tip c

/-- A workspace that is not reported has kept all commits that it had, and one of which all commits
were replayed is not reported. -/
def Vouches (pre post : MutState) (entry : CapturedWorkspace) (report : AuditReport) : Prop :=
  (entry.name ∉ report.names →
    ∀ x ∈ pre.repo.range entry.baseEpoch entry.head, post.Kept entry.name x) ∧
  (RebasedAll pre post entry → entry.name ∉ report.names)

open Classical in
/-- The commits of the workspace that were replayed below HEAD and above the epoch. -/
noncomputable def replayed (pre post : MutState) (entry : CapturedWorkspace) (e c : GitOid) :
    Finset GitOid :=
  (pre.repo.range entry.baseEpoch entry.head).filter fun x =>
    ∃ y ∈ post.repo.range e c, post.ReplayedAs x y

/-- All commits are kept, or HEAD is not above the epoch, or the commits on top of the epoch that do
not stand for replayed ones are fewer than those that were not replayed, and countable. -/
def Outnumbered (pre post : MutState) (entry : CapturedWorkspace) : Prop :=
  (∀ x ∈ pre.repo.range entry.baseEpoch entry.head, post.Kept entry.name x) ∨
    ∀ e c, post.repo.epochCurrent = some e → post.repo.heads.lookup entry.name = some c → c ≠ e →
      post.repo.commits.IsAncestor e c →
        (post.repo.range e c).card - (replayed pre post entry e c).card <
            (pre.repo.range entry.baseEpoch entry.head).card - (replayed pre post entry e c).card ∧
          (post.repo.range e c).card < 2 ^ 32 - 1

/-! ### Ranges -/

section Ranges

variable {repo repo' : AuditRepo} {base tip c head e : GitOid}

theorem AuditRepo.isAncestor_iff {a d : GitOid} :
    repo.isAncestor a d = true ↔ repo.commits.IsAncestor a d := by
  rw [AuditRepo.isAncestor, Bool.or_eq_true, decide_eq_true_iff, repo.ancestry.isAncestor_iff]
  refine ⟨fun h => h.elim (fun heq => ?_) id, .inr⟩
  rw [heq]
  exact NodeStore.IsAncestor.refl d

theorem AuditRepo.mem_range (htip : tip ∈ repo.commits.nodes) :
    c ∈ repo.range base tip ↔
      repo.commits.IsAncestor c tip ∧ ¬ repo.commits.IsAncestor c base := by
  rw [AuditRepo.range, Finset.mem_filter, Finmap.mem_keys, repo.ancestry.isAncestor_iff,
    repo.ancestry.isAncestor_iff]
  exact ⟨And.right, fun h => ⟨h.1.mem htip, h⟩⟩

theorem AuditRepo.range_self : repo.range tip tip = ∅ := by
  rw [AuditRepo.range, Finset.filter_eq_empty_iff]
  rintro c - ⟨h, hnot⟩
  exact hnot h

/-- A range stays what it is when more commits are stored. -/
theorem range_of_grows (h : repo.commits.Grows repo'.commits) (hbase : base ∈ repo.commits.nodes)
    (htip : tip ∈ repo.commits.nodes) : repo'.range base tip = repo.range base tip := by
  ext c
  rw [AuditRepo.mem_range (h.mem htip), AuditRepo.mem_range htip, h.isAncestor_iff hbase,
    h.isAncestor_iff htip]

theorem AuditRepo.countBetween_eq (hbase : base ∈ repo.commits.nodes)
    (htip : tip ∈ repo.commits.nodes) :
    repo.countBetween base tip = some (min (repo.range base tip).card (2 ^ 32 - 1)) := by
  rw [AuditRepo.countBetween]
  split_ifs with heq hmem
  · rw [heq, AuditRepo.range_self]
    rfl
  · rfl
  · exact absurd ⟨hbase, htip⟩ hmem

/-- The count of commits on top of the epoch, in terms of the ranges. -/
theorem AuditRepo.isReplayed_iff {current newEpoch : Option GitOid}
    (hhead : head ∈ repo.commits.nodes) (hbase : base ∈ repo.commits.nodes)
    (hcurrent : ∀ c, current = some c → c ∈ repo.commits.nodes)
    (hepoch : ∀ e, newEpoch = some e → e ∈ repo.commits.nodes) :
    repo.isReplayed head base current newEpoch = true ↔
      ∃ e c, newEpoch = some e ∧ current = some c ∧ c ≠ e ∧ repo.commits.IsAncestor e c ∧
        min (repo.range base head).card (2 ^ 32 - 1) ≤ min (repo.range e c).card (2 ^ 32 - 1) := by
  cases current with
  | none => simp [isReplayed]
  | some c =>
    cases newEpoch with
    | none => simp [isReplayed]
    | some e =>
      rw [isReplayed, repo.countBetween_eq (hepoch e rfl) (hcurrent c rfl),
        repo.countBetween_eq hbase hhead]
      simp only [Bool.and_eq_true, decide_eq_true_iff, AuditRepo.isAncestor_iff, Option.some_inj,
        exists_and_left, exists_eq_left', and_assoc]

end Ranges

/-! ### The report -/

section Report

variable {repo : AuditRepo} {subjects : List String} {recoveryRefs : List (String × GitOid)}
  {pin : CapturedWorkspace → Option String} {auditOn : Bool} {listed : Option (List String)}
  {opLabel : String} {entry : CapturedWorkspace}

/-- The workspace is reported. -/
def AuditRepo.Orphaned (repo : AuditRepo) (subjects : List String)
    (recoveryRefs : List (String × GitOid)) (entry : CapturedWorkspace) : Prop :=
  entry.name ∉ subjects ∧ entry.baseEpoch ≠ entry.head ∧
    repo.isPreserved entry.head entry.baseEpoch (repo.heads.lookup entry.name) repo.epochCurrent
      (repo.sharedAnchors recoveryRefs) = false

theorem AuditRepo.names_auditOne (r : AuditReport × RefStore) (name : String) :
    name ∈ (repo.auditOne subjects recoveryRefs pin r entry).1.names ↔
      name ∈ r.1.names ∨ name = entry.name ∧ repo.Orphaned subjects recoveryRefs entry := by
  rw [AuditRepo.auditOne, AuditRepo.Orphaned]
  split_ifs with hsubject hbase hpreserved
  · simp [hsubject]
  · simp [AuditReport.names, hbase]
  · simp [AuditReport.names, hpreserved]
  · have hlost := Bool.eq_false_of_not_eq_true hpreserved
    simp [AuditReport.names, hsubject, hbase, hlost]

theorem AuditRepo.names_audit {pre : PreCapture} (hpre : pre.enabled = true) (name : String) :
    name ∈ (repo.audit pre subjects opLabel recoveryRefs pin).1.names ↔
      ∃ entry ∈ pre.entries, name = entry.name ∧ repo.Orphaned subjects recoveryRefs entry := by
  have hfold (entries : List CapturedWorkspace) (r : AuditReport × RefStore) :
      name ∈ (entries.foldl (repo.auditOne subjects recoveryRefs pin) r).1.names ↔
        name ∈ r.1.names ∨
          ∃ entry ∈ entries, name = entry.name ∧ repo.Orphaned subjects recoveryRefs entry := by
    induction entries generalizing r with
    | nil => simp
    | cons entry entries ih =>
      rw [List.foldl_cons, ih, AuditRepo.names_auditOne]
      simp only [List.mem_cons, or_and_right, exists_or, exists_eq_left, or_assoc]
  rw [AuditRepo.audit, if_pos hpre, hfold]
  simp [AuditReport.names]

/-- What is captured is a HEAD and a base of the repository. -/
theorem AuditRepo.mem_capture (h : entry ∈ (repo.capture auditOn listed).entries) :
    (repo.capture auditOn listed).enabled = true ∧
      repo.heads.lookup entry.name = some entry.head ∧
        entry.baseEpoch = (repo.wsEpochs.lookup entry.name).getD entry.head := by
  cases auditOn with
  | false => exact absurd h List.not_mem_nil
  | true =>
    cases listed with
    | none => exact absurd h List.not_mem_nil
    | some names =>
      obtain ⟨name, -, hname⟩ := List.mem_filterMap.mp h
      rw [AuditRepo.captureOne, Option.map_eq_some_iff] at hname
      obtain ⟨head, hhead, rfl⟩ := hname
      exact ⟨rfl, hhead, rfl⟩

/-- The captured HEAD and base are stored. -/
theorem AuditRepo.stored_of_capture (h : entry ∈ (repo.capture auditOn listed).entries) :
    entry.head ∈ repo.commits.nodes ∧ entry.baseEpoch ∈ repo.commits.nodes := by
  obtain ⟨-, hhead, hbase⟩ := AuditRepo.mem_capture h
  have hmem := repo.heads_mem _ _ hhead
  refine ⟨hmem, ?_⟩
  cases hepoch : repo.wsEpochs.lookup entry.name with
  | none =>
    rw [hbase, hepoch]
    exact hmem
  | some oid =>
    rw [hbase, hepoch]
    exact repo.wsEpochs_mem _ _ hepoch

/-- A captured workspace is reported when it counts as orphaned. -/
theorem AuditRepo.mem_names_audit {post : AuditRepo}
    (h : entry ∈ (repo.capture auditOn listed).entries) :
    entry.name ∈ (post.audit (repo.capture auditOn listed) subjects opLabel recoveryRefs pin).1.names ↔
      post.Orphaned subjects recoveryRefs entry := by
  obtain ⟨henabled, hhead, hbase⟩ := AuditRepo.mem_capture h
  rw [AuditRepo.names_audit henabled]
  refine ⟨fun ⟨entry', hentry', hname, horphaned⟩ => ?_, fun horphaned => ⟨entry, h, rfl, horphaned⟩⟩
  obtain ⟨-, hhead', hbase'⟩ := AuditRepo.mem_capture hentry'
  have hheads : entry.head = entry'.head :=
    Option.some.inj (hhead.symm.trans ((congrArg repo.heads.lookup hname).trans hhead'))
  have hentry : entry = entry' :=
    CapturedWorkspace.ext hname hheads (by rw [hbase, hbase', hname, hheads])
  exact hentry ▸ horphaned

end Report

/-! ### Runs -/

section Runs

variable {s s' pre post : MutState} {commits commits' : CommitStore}
  {copies copies' : Set (GitOid × GitOid)} {tip tip' : GitOid} {todo kept : List GitOid}
  {entry : CapturedWorkspace} {subjects : List String} {recoveryRefs : List (String × GitOid)}

theorem Replay.grows (h : Replay commits copies tip todo kept commits' copies' tip') :
    commits.Grows commits' := by
  induction h with
  | done commits => exact .refl commits
  | skip _ ih => exact ih
  | copy _ _ _ hadds _ ih => exact hadds.grows.trans ih

theorem Step.grows (h : Step s s') : s.repo.commits.Grows s'.repo.commits := by
  cases h with
  | move hcommits => exact hcommits ▸ .refl _
  | commit name oid commit _ hadds => exact hadds.grows
  | rebase name base head epoch tip walked kept h => exact h.replay.grows

/-- No step removes a commit. -/
theorem grows_of_run (h : Run s s') : s.repo.commits.Grows s'.repo.commits := by
  induction h with
  | refl => exact .refl _
  | tail _ hstep ih => exact ih.trans hstep.grows

/-- A replay makes as many commits as it replays, all of them above where it started and none of
them above where it ends. -/
theorem Replay.exists_copies (h : Replay commits copies tip todo kept commits' copies' tip') :
    commits'.IsAncestor tip tip' ∧ ∃ made : Finset GitOid, made.card = kept.length ∧
      ∀ y ∈ made, Relation.TransGen commits'.ParentOf tip y ∧ commits'.IsAncestor y tip' := by
  induction h with
  | done commits copies tip => exact ⟨.refl tip, ∅, rfl, by simp⟩
  | skip _ ih => exact ih
  | @copy commits commits₁ commits' _ _ tip tip' c oid _ _ _ commit _ _ hparents hadds h ih =>
    obtain ⟨hanc, made, hcard, hmade⟩ := ih
    have hparent : commits'.ParentOf tip oid :=
      h.grows.parentOf (hadds.parentOf_self (hparents ▸ List.mem_cons_self))
    have hnew : oid ∉ made := fun hmem => NodeStore.transGen_irrefl oid (hmade oid hmem).1
    refine ⟨hparent.isAncestor.trans hanc, insert oid made, ?_, fun y hy => ?_⟩
    · rw [Finset.card_insert_of_notMem hnew, hcard, List.length_cons]
    · rcases Finset.mem_insert.mp hy with rfl | hy
      · exact ⟨.single hparent, hanc⟩
      · exact ⟨.head hparent (hmade y hy).1, (hmade y hy).2⟩

/-- A workspace of which all commits were replayed is as far above the epoch as it was above its
base. -/
theorem not_orphaned_of_rebasedAll (h : RebasedAll pre post entry)
    (hhead : entry.head ∈ pre.repo.commits.nodes)
    (hbase : entry.baseEpoch ∈ pre.repo.commits.nodes) :
    ¬ post.repo.Orphaned subjects recoveryRefs entry := by
  obtain ⟨s, s', epoch, tip, c, walked, hrun, hne, hrebase, hrun', hepoch, hcurrent, htip⟩ := h
  have hgrows : s.repo.commits.Grows post.repo.commits :=
    hrebase.replay.grows.trans (grows_of_run hrun')
  have hgrows' := (grows_of_run hrun).trans hgrows
  have hc : c ∈ post.repo.commits.nodes := post.repo.heads_mem _ _ hcurrent
  obtain ⟨hanc, made, hcard, hmade⟩ := hrebase.replay.exists_copies
  have habove : ∀ y ∈ made, Relation.TransGen post.repo.commits.ParentOf epoch y :=
    fun y hy => (grows_of_run hrun').transGen (hmade y hy).1
  have hnot : ∀ y ∈ made, ¬ post.repo.commits.IsAncestor y epoch := fun y hy hle =>
    NodeStore.transGen_irrefl epoch ((habove y hy).trans_left hle)
  have hbelow : ∀ y ∈ made, post.repo.commits.IsAncestor y c :=
    fun y hy => ((grows_of_run hrun').isAncestor (hmade y hy).2).trans htip
  -- the walk is the range of the capture, and each of its commits was replayed
  have hbefore : (post.repo.range entry.baseEpoch entry.head).card = made.card := by
    have hwalked : s.repo.range entry.baseEpoch entry.head = walked.toFinset := by
      ext x
      rw [List.mem_toFinset, hrebase.mem_walked]
    rw [range_of_grows hgrows ((grows_of_run hrun).mem hbase) ((grows_of_run hrun).mem hhead),
      hwalked, List.toFinset_card_of_nodup hrebase.walked_nodup, hcard]
  have hafter : made.card ≤ (post.repo.range epoch c).card := by
    refine Finset.card_le_card fun y hy => ?_
    exact (AuditRepo.mem_range hc).mpr ⟨hbelow y hy, hnot y hy⟩
  have hne' : c ≠ epoch := by
    rintro rfl
    have hpos : 0 < made.card := hcard ▸ List.length_pos_iff.mpr hne
    obtain ⟨y, hy⟩ := Finset.card_pos.mp hpos
    exact hnot y hy (hbelow y hy)
  have hreplayed : post.repo.isReplayed entry.head entry.baseEpoch
      (post.repo.heads.lookup entry.name) post.repo.epochCurrent = true := by
    refine (AuditRepo.isReplayed_iff (hgrows'.mem hhead) (hgrows'.mem hbase)
      (post.repo.heads_mem _) post.repo.epoch_mem).mpr ⟨epoch, c, hepoch, hcurrent, hne', ?_, ?_⟩
    · exact ((grows_of_run hrun').isAncestor hanc).trans htip
    · rw [hbefore]
      exact min_le_min_right _ hafter
  rintro ⟨-, -, hlost⟩
  rw [AuditRepo.isPreserved, hreplayed, Bool.or_true] at hlost
  cases hlost

end Runs

/-! ### When the audit can be relied on -/

section Vouching

variable {pre post : MutState} {repo : AuditRepo} {head base : GitOid} {name : String}
  {entry : CapturedWorkspace} {subjects : List String} {recoveryRefs : List (String × GitOid)}

/-- A workspace counts as preserved when its HEAD is below a tip, or by the count. -/
theorem AuditRepo.isPreserved_iff (hlisting : IsRecoveryListing repo.recovery recoveryRefs)
    (hhead : head ∈ repo.commits.nodes) (hbase : base ∈ repo.commits.nodes) :
    repo.isPreserved head base (repo.heads.lookup name) repo.epochCurrent
        (repo.sharedAnchors recoveryRefs) = true ↔
      (∃ tip, repo.Tip name tip ∧ repo.commits.IsAncestor head tip) ∨
        ∃ e c, repo.epochCurrent = some e ∧ repo.heads.lookup name = some c ∧ c ≠ e ∧
          repo.commits.IsAncestor e c ∧
            min (repo.range base head).card (2 ^ 32 - 1) ≤
              min (repo.range e c).card (2 ^ 32 - 1) := by
  have hanchors (tip : GitOid) : tip ∈ repo.sharedAnchors recoveryRefs ↔
      repo.epochCurrent = some tip ∨ repo.branchTip = some tip ∨
        ∃ refName, repo.recovery.lookup refName = some tip ∧
          recoveryPrefix.toList <+: refName.toList := by
    simp [AuditRepo.sharedAnchors, hlisting.mem_iff]
  rw [AuditRepo.isPreserved, Bool.or_eq_true, Bool.or_eq_true,
    AuditRepo.isReplayed_iff hhead hbase (repo.heads_mem _) repo.epoch_mem]
  refine or_congr_left ?_
  rw [Option.any_eq_true, List.any_eq_true]
  simp only [AuditRepo.isAncestor_iff, AuditRepo.Tip, hanchors]
  constructor
  · rintro (⟨c, hc, hanc⟩ | ⟨tip, htip, hanc⟩)
    · exact ⟨c, .inr (.inr (.inr hc)), hanc⟩
    · exact ⟨tip, htip.imp_right fun h => h.imp_right .inl, hanc⟩
  · rintro ⟨tip, hepoch | hbranch | hrecovery | hc, hanc⟩
    · exact .inr ⟨tip, .inl hepoch, hanc⟩
    · exact .inr ⟨tip, .inr (.inl hbranch), hanc⟩
    · exact .inr ⟨tip, .inr (.inr hrecovery), hanc⟩
    · exact .inl ⟨tip, hc, hanc⟩

/-- Where every commit of the workspace was replayed, every commit is kept. -/
theorem kept_of_card_le {e c : GitOid} (hcurrent : post.repo.heads.lookup entry.name = some c)
    (h : (pre.repo.range entry.baseEpoch entry.head).card ≤ (replayed pre post entry e c).card) :
    ∀ x ∈ pre.repo.range entry.baseEpoch entry.head, post.Kept entry.name x := by
  classical
  have hall : replayed pre post entry e c = pre.repo.range entry.baseEpoch entry.head := by
    refine Finset.eq_of_subset_of_card_le ?_ h
    rw [replayed]
    exact Finset.filter_subset _ _
  intro x hx
  rw [← hall, replayed, Finset.mem_filter] at hx
  obtain ⟨-, y, hy, hxy⟩ := hx
  have hc := post.repo.heads_mem _ _ hcurrent
  exact .inr ⟨y, c, hxy, hcurrent, ((AuditRepo.mem_range hc).mp hy).1⟩

theorem card_replayed_le (e c : GitOid) :
    (replayed pre post entry e c).card ≤ (pre.repo.range entry.baseEpoch entry.head).card := by
  classical
  rw [replayed]
  exact Finset.card_filter_le _ _

end Vouching

/-! ### A commit without parents -/

/-- The ancestry of some commits. -/
noncomputable def ancestryOf (commits : CommitStore) : AncestryTest commits where
  isAncestor a d := @decide (commits.IsAncestor a d) (Classical.propDecidable _)
  isAncestor_iff := by simp

def parentsOf (commits : CommitStore) (oid : GitOid) : List GitOid :=
  ((commits.nodes.lookup oid).map Commit.parents).getD []

theorem parentOf_of_mem {commits : CommitStore} {i j : GitOid} (h : j ∈ parentsOf commits i) :
    commits.ParentOf j i := by
  cases hnode : commits.nodes.lookup i with
  | none => simp [parentsOf, hnode] at h
  | some node => exact ⟨node, hnode, by simpa [parentsOf, hnode] using h⟩

/-- The ancestors of a commit are in every list that has it and the parents of its commits. -/
theorem mem_of_isAncestor {commits : CommitStore} {below : List GitOid} {x tip : GitOid}
    (hclosed : ∀ i ∈ below, ∀ j ∈ parentsOf commits i, j ∈ below) (htip : tip ∈ below)
    (h : commits.IsAncestor x tip) : x ∈ below := by
  refine h.mem_of_closed (t := {i | i ∈ below}) (fun i hi j hij => ?_) htip
  obtain ⟨node, hnode, hj⟩ := hij
  exact hclosed i hi j (by simpa [parentsOf, hnode] using hj)

/-- Two commits of the epoch, and two commits of a workspace that begin with another root. -/
def forkedCommits : CommitStore :=
  (((NodeStore.empty.add (sampleBlob 1) (sampleCommit 0 []) first_not_mem first_parents).add
    (sampleBlob 2) (sampleCommit 1 [sampleBlob 1]) second_not_mem (by decide)).add
      (sampleBlob 4) (sampleCommit 2 []) (by decide) (by decide)).add
        (sampleBlob 5) (sampleCommit 3 [sampleBlob 4]) (by decide) (by decide)

/-- The second commit of the workspace, replayed onto the epoch. -/
def rebasedCommits : CommitStore :=
  forkedCommits.add (sampleBlob 6) (sampleCommit 4 [sampleBlob 2]) (by decide) (by decide)

/-- Another commit on top of it. -/
def extendedCommits : CommitStore :=
  rebasedCommits.add (sampleBlob 7) (sampleCommit 5 [sampleBlob 6]) (by decide) (by decide)

/-- A repository with one workspace. -/
noncomputable def aliceRepo (commits : CommitStore) (epoch head : GitOid)
    (hepoch : epoch ∈ commits.nodes) (hhead : head ∈ commits.nodes)
    (hbase : sampleBlob 1 ∈ commits.nodes) : AuditRepo where
  commits := commits
  ancestry := ancestryOf commits
  epochCurrent := some epoch
  branchTip := none
  recovery := ∅
  heads := Finmap.singleton "alice" head
  wsEpochs := Finmap.singleton "alice" (sampleBlob 1)
  epoch_mem := by
    rintro _ ⟨⟩
    exact hepoch
  heads_mem := by
    intro name oid h
    obtain rfl := (Finmap.mem_singleton _ _ _).mp (FiniteMap.mem_of_lookup h)
    rw [Finmap.lookup_singleton_eq] at h
    exact Option.some.inj h ▸ hhead
  wsEpochs_mem := by
    intro name oid h
    obtain rfl := (Finmap.mem_singleton _ _ _).mp (FiniteMap.mem_of_lookup h)
    rw [Finmap.lookup_singleton_eq] at h
    exact Option.some.inj h ▸ hbase

noncomputable def forked : MutState :=
  ⟨aliceRepo forkedCommits (sampleBlob 1) (sampleBlob 5) (by decide) (by decide) (by decide), ∅⟩

noncomputable def advanced : MutState :=
  ⟨aliceRepo forkedCommits (sampleBlob 2) (sampleBlob 5) (by decide) (by decide) (by decide), ∅⟩

noncomputable def rebased : MutState :=
  ⟨aliceRepo rebasedCommits (sampleBlob 2) (sampleBlob 6) (by decide) (by decide) (by decide),
    insert (sampleBlob 5, sampleBlob 6) ∅⟩

noncomputable def extended : MutState :=
  ⟨aliceRepo extendedCommits (sampleBlob 2) (sampleBlob 7) (by decide) (by decide) (by decide),
    insert (sampleBlob 5, sampleBlob 6) ∅⟩

def aliceEntry : CapturedWorkspace := ⟨"alice", sampleBlob 5, sampleBlob 1⟩

theorem aliceEntry_mem : aliceEntry ∈ (forked.repo.capture true (some ["alice"])).entries := by
  have hcapture : forked.repo.captureOne "alice" = some aliceEntry := by
    have hhead : forked.repo.heads.lookup "alice" = some (sampleBlob 5) := Finmap.lookup_singleton_eq
    have hbase : forked.repo.wsEpochs.lookup "alice" = some (sampleBlob 1) :=
      Finmap.lookup_singleton_eq
    rw [AuditRepo.captureOne, hhead, hbase]
    rfl
  exact List.mem_filterMap.mpr ⟨"alice", List.mem_singleton.mpr rfl, hcapture⟩

/-- The workspace has two commits of its own. -/
theorem mem_range_forked {repo : AuditRepo} (h : forkedCommits.Grows repo.commits) (x : GitOid) :
    x ∈ repo.range (sampleBlob 1) (sampleBlob 5) ↔ x ∈ [sampleBlob 4, sampleBlob 5] := by
  have hone : sampleBlob 1 ∈ forkedCommits.nodes := by decide
  have hfive : sampleBlob 5 ∈ forkedCommits.nodes := by decide
  rw [AuditRepo.mem_range (h.mem hfive), h.isAncestor_iff hone, h.isAncestor_iff hfive]
  have hbelow : forkedCommits.IsAncestor x (sampleBlob 1) → x ∈ [sampleBlob 1] :=
    mem_of_isAncestor (by decide) (by decide)
  constructor
  · rintro ⟨hanc, -⟩
    exact mem_of_isAncestor (by decide) (by decide) hanc
  · intro hx
    have hnot : ∀ x ∈ [sampleBlob 4, sampleBlob 5], x ∉ [sampleBlob 1] := by decide
    refine ⟨?_, fun hanc => hnot x hx (hbelow hanc)⟩
    rcases List.mem_cons.mp hx with rfl | hx
    · exact (parentOf_of_mem (by decide)).isAncestor
    · obtain rfl := List.mem_singleton.mp hx
      exact .refl _

theorem run_extended : Run forked extended := by
  have hmove : Step forked advanced := .move rfl rfl
  have hwalk : Rebases advanced rebased "alice" (sampleBlob 1) (sampleBlob 5) (sampleBlob 2)
      (sampleBlob 6) [sampleBlob 4, sampleBlob 5] [sampleBlob 5] := by
    have hfive : forkedCommits.nodes.lookup (sampleBlob 5) =
        some (sampleCommit 3 [sampleBlob 4]) := by decide
    have hadds : forkedCommits.Adds (sampleBlob 6) (sampleCommit 4 [sampleBlob 2]) rebasedCommits :=
      NodeStore.adds_add
    exact ⟨Finmap.lookup_singleton_eq, by decide, fun c => (mem_range_forked (.refl _) c).symm,
      by decide, .skip (.copy hfive (by decide) rfl hadds (.done _ _ _)),
      Finmap.insert_singleton_eq.symm⟩
  have hparent : rebased.repo.heads.lookup "alice" = some (sampleBlob 6) :=
    Finmap.lookup_singleton_eq
  have hadds : rebasedCommits.Adds (sampleBlob 7) (sampleCommit 5 [sampleBlob 6]) extendedCommits :=
    NodeStore.adds_add
  have hcommit : Step rebased extended :=
    .commit "alice" _ (sampleCommit 5 [sampleBlob 6]) hparent.symm hadds Finmap.insert_singleton_eq.symm rfl
  exact ((Relation.ReflTransGen.single hmove).tail (.rebase _ _ _ _ _ _ _ hwalk)).tail hcommit

theorem noRecovery : IsRecoveryListing (∅ : RefStore) [] :=
  ⟨List.nodup_nil, by simp⟩

end Maw.Audit
