import Maw.Backend.Attach

/-!
# What an attach keeps

Wherever an attach is interrupted, each local file is in the workspace or in the backup; at its end
all of them are in the workspace. This takes that nothing is moved onto a file that an earlier
attach has left in the backup, that no listing passes over entries, and that the moves back do not
fail when the worktree could not be created. They do fail where the workspace directory is gone,
and then the files are removed with the backup.

## Main definitions

* `Local` — the files that are to be kept.
* `Kept`, `InPlace` — each of them is in one of two directories, or in one directory.
* `Careful` — what it takes.

## Main results

* `attach_keeps_files` — no file is lost.
* `attach_loses_file` — a file that is lost when the worktree cannot be created.
-/

open Interleaved LinkTree

namespace Maw.Backend

variable {β : Type}

/-! ### Local files -/

/-- A file or a link that stands below a directory of the workspace, but for the metadata of git, or
in what an earlier attach has left in the backup. -/
def Local (workspace backup : List String) (fs : FileTree β) (p : List String)
    (node : Node String β) : Prop :=
  node.isDir = false ∧ p ≠ [] ∧
    (fs (workspace ++ p) = some node ∧ p.head? ≠ some ".git" ∧ p.head? ≠ some ".jj" ∨
      fs (backup ++ p) = some node)

/-- All files are in one of the directories, with their contents. -/
def Kept (files : List String → Node String β → Prop) (workspace backup : List String)
    (fs : FileTree β) : Prop :=
  ∀ p node, files p node → fs (workspace ++ p) = some node ∨ fs (backup ++ p) = some node

/-- All files with this first name are in the directory. -/
def Holds (files : List String → Node String β → Prop) (place : List String) (name : String)
    (fs : FileTree β) : Prop :=
  ∀ below node, files (name :: below) node → fs (place ++ name :: below) = some node

def InPlace (files : List String → Node String β → Prop) (place : List String)
    (fs : FileTree β) : Prop :=
  ∀ name, Holds files place name fs

/-! ### What it takes -/

/-- Listings pass over nothing, and the best-effort one does not fail; nothing is moved onto a file
in the backup; no best-effort move fails. -/
def Careful : (op : AttachAction) → FileTree β → Except AttachError op.Ret → Prop
  | .readDir place purpose, fs, r => (purpose = .bestEffort → ∀ e, r ≠ .error e) ∧
    ∀ names, r = .ok names → ∀ name below, (fs (place ++ name :: below)).isSome → name ∈ names
  | .rename _ dst .backup, fs, _ => ∀ node, fs dst = some node → node.isDir
  | .rename _ _ .bestEffort, _, r => ∀ e, r ≠ .error e
  | _, _, _ => True

def carefulExec (op : AttachAction) (fs : FileTree β) (r : Except AttachError op.Ret)
    (fs' : FileTree β) : Prop :=
  AttachAction.exec op fs r fs' ∧ Careful op fs r

section Places

variable {workspacesDir : List String} {name : String}

theorem backupName_ne (name : String) : "." ++ name ++ "-attach-backup" ≠ name := by
  intro h
  have hlength := congrArg String.length h
  simp only [String.length_append] at hlength
  have hdot : ".".length = 1 := by decide
  omega

theorem workspacePlace_ne_backupPlace :
    workspacePlace workspacesDir name ≠ backupPlace workspacesDir name := by
  intro h
  obtain ⟨-, hname⟩ := List.append_inj' h rfl
  exact backupName_ne name (List.cons.inj hname).1.symm

theorem length_workspacePlace :
    (workspacePlace workspacesDir name).length = (backupPlace workspacesDir name).length := by
  simp [workspacePlace, backupPlace]

/-- Nothing in the backup stands at or below the workspace. -/
theorem not_workspace_prefix (p : List String) :
    ¬ workspacePlace workspacesDir name <+: backupPlace workspacesDir name ++ p := by
  rintro ⟨rest, hrest⟩
  exact workspacePlace_ne_backupPlace (List.append_inj hrest length_workspacePlace).1

/-- Nothing in the workspace stands at or below the backup. -/
theorem not_prefix_of_backup (p : List String) :
    ¬ backupPlace workspacesDir name <+: workspacePlace workspacesDir name ++ p := by
  rintro ⟨rest, hrest⟩
  exact workspacePlace_ne_backupPlace (List.append_inj hrest length_workspacePlace.symm).1.symm

end Places

/-! ### Files in places -/

section Files

variable {files : List String → Node String β → Prop} {fs fs' : FileTree β}
  {workspace backup src dst : List String} {n m : String}

/-- A tree that is the same below a child of a place. -/
theorem Holds.of_eq (h : Holds files src n fs)
    (heq : ∀ below, fs' (src ++ n :: below) = fs (src ++ n :: below)) : Holds files src n fs' :=
  fun below node hfile => (heq below).trans (h below node hfile)

theorem Holds.dirsAdded (h : Holds files src n fs) (hadded : DirsAdded fs fs') :
    Holds files src n fs' :=
  fun below node hfile => hadded.of_some (h below node hfile)

/-- What is moved is in the other directory. -/
theorem Holds.moved (dst : List String) (h : Holds files src n fs) :
    Holds files dst n (moved fs (src ++ [n]) (dst ++ [n])) := by
  intro below node hfile
  have hplace (a : List String) : a ++ n :: below = a ++ [n] ++ below := by
    rw [List.append_assoc, List.singleton_append]
  rw [hplace, moved_dst, ← hplace]
  exact h below node hfile

/-- A rename leaves the other entries of directories that are no parts of each other. -/
theorem moved_other_child (fs : FileTree β) {place : List String} (hsrc : place = src ∨ place = dst)
    (hlength : src.length = dst.length) (hne : m ≠ n) (below : List String) :
    moved fs (src ++ [n]) (dst ++ [n]) (place ++ m :: below) = fs (place ++ m :: below) := by
  refine moved_other ?_ ?_
  · have hlen : dst.length = place.length := by rcases hsrc with rfl | rfl <;> simp [hlength]
    rw [child_prefix_iff hlen]
    exact fun h => hne h.2.symm
  · have hlen : src.length = place.length := by rcases hsrc with rfl | rfl <;> simp [hlength]
    rw [child_prefix_iff hlen]
    exact fun h => hne h.2.symm

/-- Files are paths with a first name. -/
theorem kept_of_holds (hnamed : ∀ node, ¬ files [] node)
    (h : ∀ n, Holds files workspace n fs ∨ Holds files backup n fs) :
    Kept files workspace backup fs := by
  intro p node hp
  cases p with
  | nil => exact absurd hp (hnamed node)
  | cons n below => exact (h n).imp (fun h => h below node hp) fun h => h below node hp

theorem InPlace.kept_backup (h : InPlace files backup fs) (hnamed : ∀ node, ¬ files [] node) :
    Kept files workspace backup fs :=
  kept_of_holds hnamed fun n => .inr (h n)

theorem InPlace.kept_workspace (h : InPlace files workspace fs)
    (hnamed : ∀ node, ¬ files [] node) : Kept files workspace backup fs :=
  kept_of_holds hnamed fun n => .inl (h n)

end Files

/-! ### Steps -/

section Steps

variable {workspacesDir : List String} {name : String} {fs₀ : FileTree β}

/-- The local files of a workspace and of its backup. -/
def localFiles (workspacesDir : List String) (name : String) (fs₀ : FileTree β) :
    List String → Node String β → Prop :=
  Local (workspacePlace workspacesDir name) (backupPlace workspacesDir name) fs₀

/-- No file is lost. -/
def KeptFrom (workspacesDir : List String) (name : String) (fs₀ : FileTree β) :
    FileTree β → Prop :=
  Kept (localFiles workspacesDir name fs₀) (workspacePlace workspacesDir name)
    (backupPlace workspacesDir name)

/-- Triples of programs that lose no file with any of their steps. -/
abbrev Keeps {α : Type} (workspacesDir : List String) (name : String) (fs₀ : FileTree β)
    (P : FileTree β → Prop) (p : AttachProg α) (R : α → FileTree β → Prop) : Prop :=
  Triple carefulExec (fun _ _ => False) (fun _ => KeptFrom workspacesDir name fs₀) P p R
    (KeptFrom workspacesDir name fs₀)

theorem stable_keeps (P : FileTree β → Prop) : Stable (fun _ _ => False) P := fun _ _ h => h.elim

theorem localFiles_ne_nil (node : Node String β) : ¬ localFiles workspacesDir name fs₀ [] node :=
  fun h => h.2.1 rfl

/-- All files are in the backup. -/
def AllBackedUp (workspacesDir : List String) (name : String) (fs₀ : FileTree β) :
    FileTree β → Prop :=
  InPlace (localFiles workspacesDir name fs₀) (backupPlace workspacesDir name)

/-- All files are in the workspace. -/
def AllBack (workspacesDir : List String) (name : String) (fs₀ : FileTree β) :
    FileTree β → Prop :=
  InPlace (localFiles workspacesDir name fs₀) (workspacePlace workspacesDir name)

theorem AllBackedUp.kept {fs : FileTree β} (h : AllBackedUp workspacesDir name fs₀ fs) :
    KeptFrom workspacesDir name fs₀ fs :=
  h.kept_backup localFiles_ne_nil

theorem AllBack.kept {fs : FileTree β} (h : AllBack workspacesDir name fs₀ fs) :
    KeptFrom workspacesDir name fs₀ fs :=
  h.kept_workspace localFiles_ne_nil

theorem keeps_bind {α γ : Type} {P : FileTree β → Prop} {p : AttachProg α}
    {f : α → AttachProg γ} {R : α → FileTree β → Prop} {R' : γ → FileTree β → Prop}
    (hp : Keeps workspacesDir name fs₀ P p R)
    (hf : ∀ a, Keeps workspacesDir name fs₀ (R a) (f a) R') :
    Keeps workspacesDir name fs₀ P (p >>= f) R' :=
  triple_bind (stable_keeps _) hp hf

theorem keeps_invoke {a : AttachAction} {P : FileTree β → Prop} {R : a.Ret → FileTree β → Prop}
    (hR : ∀ v fs, R v fs → KeptFrom workspacesDir name fs₀ fs)
    (h : ∀ fs r fs', P fs → carefulExec a fs r fs' →
      Ends R (KeptFrom workspacesDir name fs₀) r fs') :
    Keeps workspacesDir name fs₀ P (invoke a) R := by
  refine triple_attempt (stable_keeps _) (fun _ => stable_keeps _) (stable_keeps _) ?_
  intro fs r fs' hfs hexec
  have hend := h fs r fs' hfs hexec
  rcases r with e | v
  · exact ⟨hend, hend⟩
  · exact ⟨hR v fs' hend, hend⟩

/-- The calls that leave what is in the backup: they only act at or below the workspace, or add
directories. -/
def LeavesBackup (workspacesDir : List String) (name : String) : AttachAction → Prop
  | .rename .. => False
  | .removeDirAll place | .removeFile place | .worktreeAdd _ _ place =>
    workspacePlace workspacesDir name <+: place
  | _ => True

/-- Trees that are the same but for what is at or below a part of the workspace. -/
theorem AllBackedUp.onlyBelow {fs fs' : FileTree β} {place : List String}
    (h : AllBackedUp workspacesDir name fs₀ fs)
    (hplace : workspacePlace workspacesDir name <+: place) (honly : OnlyBelow place fs fs') :
    AllBackedUp workspacesDir name fs₀ fs' :=
  fun n => (h n).of_eq fun _ => honly _ fun hprefix =>
    not_workspace_prefix _ (hplace.trans hprefix)

theorem AllBackedUp.step {op : AttachAction} {fs fs' : FileTree β}
    {r : Except AttachError op.Ret} (h : AllBackedUp workspacesDir name fs₀ fs)
    (hop : LeavesBackup workspacesDir name op) (hexec : AttachAction.exec op fs r fs') :
    AllBackedUp workspacesDir name fs₀ fs' := by
  cases op with
  | rename => exact hop.elim
  | removeDirAll place =>
    rcases hexec with ⟨-, -, rfl⟩ | ⟨-, hthinned⟩
    · exact h.onlyBelow hop (removed_onlyBelow fs place)
    · exact h.onlyBelow hop hthinned.onlyBelow
  | removeFile place =>
    rcases hexec with ⟨-, -, rfl⟩ | ⟨-, rfl⟩
    · exact h.onlyBelow hop (removed_onlyBelow fs place)
    · exact h
  | worktreeAdd _ _ place => exact h.onlyBelow hop hexec.1
  | createDirAll place => exact fun n => (h n).dirsAdded hexec.1
  | readDir place purpose =>
    rcases hexec with ⟨rfl, -⟩ | ⟨-, rfl⟩
    · exact h
    · exact h
  | _ =>
    obtain rfl := hexec.1
    exact h

/-- The frame rule: a program that leaves what is in the backup. -/
theorem keeps_allBackedUp {α : Type} {p : AttachProg α}
    (hp : p.run.Only (LeavesBackup workspacesDir name)) :
    Keeps workspacesDir name fs₀ (AllBackedUp workspacesDir name fs₀) p
      fun _ => AllBackedUp workspacesDir name fs₀ := by
  refine triple_of_only (stable_keeps _) ?_ (fun _ h => h.kept) hp
  intro op fs r fs' hop hfs hexec
  have hfs' := hfs.step hop hexec.1
  exact ⟨hfs'.kept, hfs'⟩

/-! ### The moves to the backup -/

/-- The files of one name are where they were. -/
def Unmoved (workspacesDir : List String) (name : String) (fs₀ : FileTree β) (n : String)
    (fs : FileTree β) : Prop :=
  (n ≠ ".git" → n ≠ ".jj" → Holds
    (fun p node => node.isDir = false ∧ fs₀ (workspacePlace workspacesDir name ++ p) = some node)
    (workspacePlace workspacesDir name) n fs) ∧
  Holds (fun p node => node.isDir = false ∧ fs₀ (backupPlace workspacesDir name ++ p) = some node)
    (backupPlace workspacesDir name) n fs

/-- The files of some names are where they were, and the other ones are in the backup. -/
def Moving (workspacesDir : List String) (name : String) (fs₀ : FileTree β) (rest : List String)
    (fs : FileTree β) : Prop :=
  (∀ n ∈ rest, Unmoved workspacesDir name fs₀ n fs) ∧
    ∀ n, n ∉ rest → Holds (localFiles workspacesDir name fs₀) (backupPlace workspacesDir name) n fs

theorem unmoved_start (n : String) : Unmoved workspacesDir name fs₀ n fs₀ :=
  ⟨fun _ _ _ _ h => h.2, fun _ _ h => h.2⟩

theorem Unmoved.dirsAdded {n : String} {fs fs' : FileTree β}
    (h : Unmoved workspacesDir name fs₀ n fs) (hadded : DirsAdded fs fs') :
    Unmoved workspacesDir name fs₀ n fs' :=
  ⟨fun hgit hjj => (h.1 hgit hjj).dirsAdded hadded, h.2.dirsAdded hadded⟩

theorem kept_of_unmoved {fs : FileTree β}
    (h : ∀ n, Unmoved workspacesDir name fs₀ n fs ∨
      Holds (localFiles workspacesDir name fs₀) (backupPlace workspacesDir name) n fs) :
    KeptFrom workspacesDir name fs₀ fs := by
  intro p node hp
  cases p with
  | nil => exact absurd hp (localFiles_ne_nil node)
  | cons n below =>
    rcases h n with hunmoved | hbackup
    · obtain ⟨hleaf, -, ⟨hfile, hgit, hjj⟩ | hfile⟩ := hp
      · exact .inl (hunmoved.1 (by simpa using hgit) (by simpa using hjj) below node
          ⟨hleaf, hfile⟩)
      · exact .inr (hunmoved.2 below node ⟨hleaf, hfile⟩)
    · exact .inr (hbackup below node hp)

theorem Moving.kept {rest : List String} {fs : FileTree β}
    (h : Moving workspacesDir name fs₀ rest fs) : KeptFrom workspacesDir name fs₀ fs := by
  refine kept_of_unmoved fun n => ?_
  by_cases hn : n ∈ rest
  · exact .inl (h.1 n hn)
  · exact .inr (h.2 n hn)

/-- After the move of an entry onto nothing or onto an empty directory, the files of its name are in
the backup. -/
theorem Moving.step {n : String} {rest : List String} {fs : FileTree β}
    (h : Moving workspacesDir name fs₀ (n :: rest) fs) (hn : n ∉ rest) (hgit : n ≠ ".git")
    (hjj : n ≠ ".jj")
    (hrename : Renamable fs (workspacePlace workspacesDir name ++ [n])
      (backupPlace workspacesDir name ++ [n]))
    (hdir : ∀ node, fs (backupPlace workspacesDir name ++ [n]) = some node → node.isDir) :
    Moving workspacesDir name fs₀ rest (moved fs (workspacePlace workspacesDir name ++ [n])
      (backupPlace workspacesDir name ++ [n])) := by
  have hother (m : String) (hne : m ≠ n) (place : List String)
      (hplace : place = workspacePlace workspacesDir name ∨
        place = backupPlace workspacesDir name) (below : List String) :=
    moved_other_child fs hplace length_workspacePlace hne below
  constructor
  · intro m hm
    have hne : m ≠ n := by
      rintro rfl
      exact hn hm
    have hunmoved := h.1 m (List.mem_cons_of_mem _ hm)
    exact ⟨fun hmgit hmjj => (hunmoved.1 hmgit hmjj).of_eq (hother m hne _ (.inl rfl)),
      hunmoved.2.of_eq (hother m hne _ (.inr rfl))⟩
  · intro m hm
    by_cases hne : m = n
    · subst hne
      have hunmoved := h.1 m List.mem_cons_self
      have hmoved := (hunmoved.1 hgit hjj).moved (backupPlace workspacesDir name)
      intro below node hfile
      obtain ⟨hleaf, -, ⟨hsource, -⟩ | hleft⟩ := hfile
      · exact hmoved below node ⟨hleaf, hsource⟩
      -- No file can have been left where the entry was moved to.
      have hnode := hunmoved.2 below node ⟨hleaf, hleft⟩
      have hplace : backupPlace workspacesDir name ++ m :: below =
          backupPlace workspacesDir name ++ [m] ++ below := by
        rw [List.append_assoc, List.singleton_append]
      rw [hplace] at hnode
      exfalso
      obtain ⟨-, -, -, hvacant | ⟨-, hempty⟩ | ⟨_, node', -, hnode', -, hleaf'⟩⟩ := hrename
      · rw [hvacant below] at hnode
        cases hnode
      · by_cases hbelow : below = []
        · subst hbelow
          rw [List.append_nil] at hnode
          have := hdir node hnode
          rw [hleaf] at this
          cases this
        · rw [hempty.2 below hbelow] at hnode
          cases hnode
      · have := hdir node' hnode'
        rw [hleaf'] at this
        cases this
    · have hbackup := h.2 m fun hmem => (List.mem_cons.mp hmem).elim hne hm
      exact hbackup.of_eq (hother m hne _ (.inr rfl))

theorem keeps_moveAll (rest : List String) (hnodup : rest.Nodup)
    (hnames : ∀ n ∈ rest, n ≠ ".git" ∧ n ≠ ".jj") :
    Keeps workspacesDir name fs₀ (Moving workspacesDir name fs₀ rest)
      (moveAll (workspacePlace workspacesDir name) (backupPlace workspacesDir name) rest)
      fun _ => AllBackedUp workspacesDir name fs₀ := by
  induction rest with
  | nil => exact triple_pure (stable_keeps _) fun fs h n => h.2 n List.not_mem_nil
  | cons n rest ih =>
    obtain ⟨hn, hnodup'⟩ := List.nodup_cons.mp hnodup
    obtain ⟨hgit, hjj⟩ := hnames n List.mem_cons_self
    refine keeps_bind ?_ fun _ => ih hnodup' fun m hm => hnames m (List.mem_cons_of_mem _ hm)
    refine keeps_invoke (fun _ fs h => h.kept) ?_
    rintro fs r fs' h ⟨⟨hrename, rfl, rfl⟩ | ⟨rfl, rfl⟩, hdir⟩
    · exact h.step hn hgit hjj hrename hdir
    · exact h.kept

/-- With a listing that passes over nothing, all that is to be moved is listed. -/
theorem keeps_backupWorkspaceContents :
    Keeps workspacesDir name fs₀ (fun fs => ∀ n, Unmoved workspacesDir name fs₀ n fs)
      (backupWorkspaceContents (workspacePlace workspacesDir name)
        (backupPlace workspacesDir name)) fun _ => AllBackedUp workspacesDir name fs₀ := by
  have hkept (fs : FileTree β) (h : ∀ n, Unmoved workspacesDir name fs₀ n fs) :
      KeptFrom workspacesDir name fs₀ fs := kept_of_unmoved fun n => .inl (h n)
  refine keeps_bind (R := fun _ fs => ∀ n, Unmoved workspacesDir name fs₀ n fs) ?_ fun _ => ?_
  · refine keeps_invoke (fun _ => hkept) ?_
    rintro fs r fs' h ⟨⟨hadded, -⟩, -⟩
    have hfs' : ∀ n, Unmoved workspacesDir name fs₀ n fs' := fun n => (h n).dirsAdded hadded
    rcases r with e | v
    · exact hkept fs' hfs'
    · exact hfs'
  let listed (names : List String) := names.filter fun n => n ≠ ".git" && n ≠ ".jj"
  refine keeps_bind (R := fun names fs => names.Nodup ∧
    Moving workspacesDir name fs₀ (listed names) fs) ?_ fun names => ?_
  · refine keeps_invoke (fun _ fs h => h.2.kept) ?_
    rintro fs r fs' h ⟨⟨rfl, -, names, rfl, hnodup, -⟩ | ⟨rfl, rfl⟩, -, hall⟩
    · refine ⟨hnodup, fun n _ => h n, fun n hn below node hfile => ?_⟩
      obtain ⟨hleaf, -, ⟨hsource, hgit, hjj⟩ | hleft⟩ := hfile
      · have hgit : n ≠ ".git" := by simpa using hgit
        have hjj : n ≠ ".jj" := by simpa using hjj
        have hnode := (h n).1 hgit hjj below node ⟨hleaf, hsource⟩
        have hmem : n ∈ names := hall names rfl n below (by rw [hnode]; rfl)
        exact absurd (List.mem_filter.mpr ⟨hmem, by simp [hgit, hjj]⟩) hn
      · exact (h n).2 below node ⟨hleaf, hleft⟩
    · exact hkept _ h
  refine triple_of_fact fun hnodup => keeps_bind (keeps_moveAll (listed names)
    (hnodup.filter _) fun n hn => ?_) fun _ => ?_
  · have hp := (List.mem_filter.mp hn).2
    simpa using hp
  · have hbelow (entry : String) : workspacePlace workspacesDir name <+:
        workspacePlace workspacesDir name ++ [entry] := List.prefix_append _ _
    refine keeps_allBackedUp (only_bind ?_ fun _ => ?_)
    · refine only_bind (only_attempt trivial) fun there => ?_
      exact only_ite (only_bind (only_attempt trivial) fun isDir =>
        only_ite (only_attempt (hbelow _)) (only_attempt (hbelow _))) trivial
    · exact only_bind (only_attempt trivial) fun there =>
        only_ite (only_ignoreError (only_attempt (hbelow _))) trivial

/-! ### The worktree and the moves back -/

theorem only_createWorkspace (epoch : String) : (createWorkspace workspacesDir name epoch).run.Only
    (LeavesBackup workspacesDir name) := by
  have hself : workspacePlace workspacesDir name <+: workspacePlace workspacesDir name :=
    List.prefix_refl _
  have hknown : (workspaceExists workspacesDir name).run.Only (LeavesBackup workspacesDir name) :=
    only_bind (only_attempt trivial) fun _ => only_ite (only_attempt trivial) trivial
  have hstale : (removeStaleDir (workspacePlace workspacesDir name)).run.Only
      (LeavesBackup workspacesDir name) :=
    only_bind (only_attempt trivial) fun _ => only_ite (only_attempt hself) trivial
  have hcleanUp : (removeIfExists (workspacePlace workspacesDir name)).run.Only
      (LeavesBackup workspacesDir name) :=
    only_bind (only_attempt trivial) fun _ =>
      only_ite (only_ignoreError (only_attempt hself)) trivial
  refine only_bind hknown fun _ => only_ite trivial ?_
  refine only_bind hstale fun _ => only_bind (only_ignoreError (only_attempt trivial)) fun _ =>
    only_bind (only_attempt trivial) fun _ => only_bind (only_attempt trivial) fun oid => ?_
  exact only_bind (only_onError (only_attempt hself) hcleanUp) fun _ => only_attempt trivial

/-- The files of some names are in the backup, and the other ones are back. -/
def Restoring (workspacesDir : List String) (name : String) (fs₀ : FileTree β)
    (rest : List String) (fs : FileTree β) : Prop :=
  (∀ n ∈ rest,
    Holds (localFiles workspacesDir name fs₀) (backupPlace workspacesDir name) n fs) ∧
  ∀ n, n ∉ rest →
    Holds (localFiles workspacesDir name fs₀) (workspacePlace workspacesDir name) n fs

theorem Restoring.kept {rest : List String} {fs : FileTree β}
    (h : Restoring workspacesDir name fs₀ rest fs) : KeptFrom workspacesDir name fs₀ fs := by
  refine kept_of_holds localFiles_ne_nil fun n => ?_
  by_cases hn : n ∈ rest
  · exact .inr (h.1 n hn)
  · exact .inl (h.2 n hn)

theorem Restoring.moved {n : String} {rest : List String} {fs : FileTree β}
    (h : Restoring workspacesDir name fs₀ (n :: rest) fs) (hn : n ∉ rest) :
    Restoring workspacesDir name fs₀ rest (moved fs (backupPlace workspacesDir name ++ [n])
      (workspacePlace workspacesDir name ++ [n])) := by
  have hother (m : String) (hne : m ≠ n) (place : List String)
      (hplace : place = backupPlace workspacesDir name ∨
        place = workspacePlace workspacesDir name) (below : List String) :=
    moved_other_child fs hplace length_workspacePlace.symm hne below
  constructor
  · intro m hm
    have hne : m ≠ n := by
      rintro rfl
      exact hn hm
    exact (h.1 m (List.mem_cons_of_mem _ hm)).of_eq (hother m hne _ (.inl rfl))
  · intro m hm
    by_cases hne : m = n
    · subst hne
      exact (h.1 m List.mem_cons_self).moved _
    · have hback := h.2 m fun hmem => (List.mem_cons.mp hmem).elim hne hm
      exact hback.of_eq (hother m hne _ (.inr rfl))

/-- What the checkout has written under a name in the backup is none of the files. -/
theorem Restoring.onlyBelow {n : String} {rest : List String} {fs fs' : FileTree β}
    (h : Restoring workspacesDir name fs₀ (n :: rest) fs)
    (honly : OnlyBelow (workspacePlace workspacesDir name ++ [n]) fs fs') :
    Restoring workspacesDir name fs₀ (n :: rest) fs' := by
  constructor
  · intro m hm
    refine (h.1 m hm).of_eq fun below => honly _ fun hprefix => ?_
    exact not_workspace_prefix _ ((List.prefix_append _ _).trans hprefix)
  · intro m hm
    refine (h.2 m hm).of_eq fun below => honly _ ?_
    rw [child_prefix_iff rfl]
    rintro ⟨-, rfl⟩
    exact hm List.mem_cons_self

theorem keeps_clearEntry (n : String) (rest : List String) :
    Keeps workspacesDir name fs₀ (Restoring workspacesDir name fs₀ (n :: rest))
      (clearEntry (workspacePlace workspacesDir name ++ [n]))
      fun _ => Restoring workspacesDir name fs₀ (n :: rest) := by
  let place := workspacePlace workspacesDir name ++ [n]
  have hop : ∀ op (fs : FileTree β) r fs', (op = .exists_ place ∨ op = .isDir place ∨
      op = .removeDirAll place ∨ op = .removeFile place) →
      Restoring workspacesDir name fs₀ (n :: rest) fs → carefulExec op fs r fs' →
        KeptFrom workspacesDir name fs₀ fs' ∧ Restoring workspacesDir name fs₀ (n :: rest) fs' := by
    intro op fs r fs' hop h hexec
    have hfs' : Restoring workspacesDir name fs₀ (n :: rest) fs' := by
      rcases hop with rfl | rfl | rfl | rfl
      · obtain rfl := hexec.1.1
        exact h
      · obtain rfl := hexec.1.1
        exact h
      · rcases hexec.1 with ⟨-, -, rfl⟩ | ⟨-, hthinned⟩
        · exact h.onlyBelow (removed_onlyBelow fs place)
        · exact h.onlyBelow hthinned.onlyBelow
      · rcases hexec.1 with ⟨-, -, rfl⟩ | ⟨-, rfl⟩
        · exact h.onlyBelow (removed_onlyBelow fs place)
        · exact h
    exact ⟨hfs'.kept, hfs'⟩
  refine triple_of_only (stable_keeps _) hop (fun _ h => h.kept) ?_
  refine only_bind (only_attempt (.inl rfl)) fun there => only_ite ?_ trivial
  refine only_bind (only_attempt (.inr (.inl rfl))) fun isDir => only_ignoreError ?_
  exact only_ite (only_attempt (.inr (.inr (.inl rfl)))) (only_attempt (.inr (.inr (.inr rfl))))

theorem keeps_moveBackOverwrite (rest : List String) (hnodup : rest.Nodup) :
    Keeps workspacesDir name fs₀ (Restoring workspacesDir name fs₀ rest)
      (moveBackOverwrite (backupPlace workspacesDir name) (workspacePlace workspacesDir name) rest)
      fun _ => AllBack workspacesDir name fs₀ := by
  induction rest with
  | nil => exact triple_pure (stable_keeps _) fun fs h n => h.2 n List.not_mem_nil
  | cons n rest ih =>
    obtain ⟨hn, hnodup'⟩ := List.nodup_cons.mp hnodup
    refine keeps_bind (keeps_clearEntry n rest) fun _ => keeps_bind ?_ fun _ => ih hnodup'
    refine keeps_invoke (fun _ fs h => h.kept) ?_
    rintro fs r fs' h ⟨⟨-, rfl, rfl⟩ | ⟨rfl, rfl⟩, -⟩
    · exact h.moved hn
    · exact h.kept

/-- No best-effort move fails. -/
theorem keeps_moveBackBestEffort (rest : List String) (hnodup : rest.Nodup) :
    Keeps workspacesDir name fs₀ (Restoring workspacesDir name fs₀ rest)
      (moveBackBestEffort (backupPlace workspacesDir name) (workspacePlace workspacesDir name) rest)
      fun _ => AllBack workspacesDir name fs₀ := by
  induction rest with
  | nil => exact triple_pure (stable_keeps _) fun fs h n => h.2 n List.not_mem_nil
  | cons n rest ih =>
    obtain ⟨hn, hnodup'⟩ := List.nodup_cons.mp hnodup
    refine keeps_bind (R := fun _ => Restoring workspacesDir name fs₀ rest)
      (triple_ignoreError (stable_keeps _) ?_) fun _ => ih hnodup'
    refine Meets.imp (Q := Ends (fun _ => Restoring workspacesDir name fs₀ rest)
      fun _ => False) ?_ ?_
    · refine triple_attempt (stable_keeps _) (fun _ => stable_keeps _) (stable_keeps _) ?_
      rintro fs r fs' h ⟨⟨-, rfl, rfl⟩ | ⟨rfl, rfl⟩, hok⟩
      · exact ⟨(h.moved hn).kept, h.moved hn⟩
      · exact absurd rfl (hok .call)
    · rintro (e | u) fs h
      · exact h.elim
      · exact h

/-- With a listing of the backup that passes over nothing. -/
theorem AllBackedUp.restoring {fs : FileTree β} (h : AllBackedUp workspacesDir name fs₀ fs)
    {names : List String} (hall : ∀ n below,
      (fs (backupPlace workspacesDir name ++ n :: below)).isSome → n ∈ names) :
    Restoring workspacesDir name fs₀ names fs := by
  refine ⟨fun n _ => h n, fun n hn below node hfile => ?_⟩
  have hnode := h n below node hfile
  exact absurd (hall n below (by rw [hnode]; rfl)) hn

theorem keeps_readBackup :
    Keeps workspacesDir name fs₀ (AllBackedUp workspacesDir name fs₀)
      (invoke (.readDir (backupPlace workspacesDir name) .restore))
      fun names fs => names.Nodup ∧ Restoring workspacesDir name fs₀ names fs := by
  refine keeps_invoke (fun _ fs h => h.2.kept) ?_
  rintro fs r fs' h ⟨⟨rfl, -, names, rfl, hnodup, -⟩ | ⟨rfl, rfl⟩, -, hall⟩
  · exact ⟨hnodup, h.restoring (hall names rfl)⟩
  · exact h.kept

/-- The removal of the backup once all files are back. -/
theorem keeps_removeBackup :
    Keeps workspacesDir name fs₀ (AllBack workspacesDir name fs₀)
      (ignoreError (invoke (.removeDirAll (backupPlace workspacesDir name))))
      fun _ => AllBack workspacesDir name fs₀ := by
  refine triple_of_only (K := fun op => op = .removeDirAll (backupPlace workspacesDir name))
    (stable_keeps _) ?_ (fun _ h => h.kept) (only_ignoreError (only_attempt rfl))
  rintro _ fs r fs' rfl h ⟨hexec, -⟩
  have honly : OnlyBelow (backupPlace workspacesDir name) fs fs' := by
    rcases hexec with ⟨-, -, rfl⟩ | ⟨-, hthinned⟩
    · exact removed_onlyBelow _ _
    · exact hthinned.onlyBelow
  have hfs' : AllBack workspacesDir name fs₀ fs' :=
    fun n => (h n).of_eq fun below => honly _ (not_prefix_of_backup _)
  exact ⟨hfs'.kept, hfs'⟩

theorem keeps_restoreBackup (epoch : String) (created : Option Unit) :
    Keeps workspacesDir name fs₀ (AllBackedUp workspacesDir name fs₀)
      (restoreBackup workspacesDir name epoch created)
      fun _ => AllBack workspacesDir name fs₀ := by
  have hremove (b : Bool) : Keeps workspacesDir name fs₀ (AllBack workspacesDir name fs₀)
      (ignoreError (invoke (.removeDirAll (backupPlace workspacesDir name))) >>= fun _ => pure b)
      fun _ => AllBack workspacesDir name fs₀ :=
    keeps_bind keeps_removeBackup fun _ => triple_pure (stable_keeps _) fun _ h => h
  cases created with
  | some u =>
    refine keeps_bind (keeps_allBackedUp (only_ignoreError (only_attempt trivial))) fun _ =>
      keeps_bind ?_ fun _ => hremove true
    exact keeps_bind keeps_readBackup fun names =>
      triple_of_fact fun hnodup => keeps_moveBackOverwrite names hnodup
  | none =>
    refine keeps_bind ?_ fun _ => hremove false
    -- The listing does not fail, so that there is something to move back.
    refine keeps_bind (R := fun entries fs => (entries.getD []).Nodup ∧
      Restoring workspacesDir name fs₀ (entries.getD []) fs) ?_ fun entries =>
        triple_of_fact fun hnodup => keeps_moveBackBestEffort _ hnodup
    have hread : Triple carefulExec (fun _ _ => False)
        (fun _ => KeptFrom workspacesDir name fs₀) (AllBackedUp workspacesDir name fs₀)
        (invoke (.readDir (backupPlace workspacesDir name) .bestEffort))
        (fun names fs => names.Nodup ∧ Restoring workspacesDir name fs₀ names fs)
        fun _ => False := by
      refine triple_attempt (stable_keeps _) (fun _ => stable_keeps _) (stable_keeps _) ?_
      rintro fs r fs' h ⟨⟨rfl, -, names, rfl, hnodup, -⟩ | ⟨rfl, rfl⟩, hok, hall⟩
      · exact ⟨h.kept, hnodup, h.restoring (hall names rfl)⟩
      · exact absurd rfl (hok rfl .call)
    refine (triple_asOption (fun _ => stable_keeps _) (stable_keeps _) hread).imp ?_ fun _ h => h
    rintro (_ | names) fs h
    · exact h.elim
    · exact h

/-- The calls that change nothing. -/
def ChangesNothing : AttachAction → Prop
  | .createDirAll _ | .rename .. | .removeDirAll _ | .removeFile _ | .worktreeAdd .. => False
  | _ => True

theorem ChangesNothing.same {op : AttachAction} {fs fs' : FileTree β}
    {r : Except AttachError op.Ret} (hop : ChangesNothing op)
    (h : AttachAction.exec op fs r fs') : fs' = fs := by
  cases op with
  | createDirAll | rename | removeDirAll | removeFile | worktreeAdd => exact hop.elim
  | readDir =>
    rcases h with ⟨hsame, -⟩ | ⟨-, hsame⟩
    · exact hsame
    · exact hsame
  | _ => exact h.1

theorem only_checkAttach {revision : Option String} :
    (checkAttach workspacesDir name revision).run.Only ChangesNothing := by
  have hknown : (workspaceExists workspacesDir name).run.Only ChangesNothing :=
    only_bind (only_attempt trivial) fun _ => only_ite (only_attempt trivial) trivial
  refine only_bind (only_attempt trivial) fun _ => only_bind (only_attempt trivial) fun _ =>
    only_bind (only_attempt trivial) fun there => only_ite trivial ?_
  exact only_bind (only_attempt trivial) fun _ => only_bind (only_attempt trivial) fun _ =>
    only_bind hknown fun tracked => only_ite trivial (only_attempt trivial)

theorem keeps_attachSteps (revision : Option String) :
    Keeps workspacesDir name fs₀ (· = fs₀) (attachSteps workspacesDir name revision)
      fun _ => AllBack workspacesDir name fs₀ := by
  have hstart : ∀ n, Unmoved workspacesDir name fs₀ n fs₀ := unmoved_start
  have hkept : KeptFrom workspacesDir name fs₀ fs₀ := kept_of_unmoved fun n => .inl (hstart n)
  unfold attachSteps
  split_ifs
  · exact triple_throw (stable_keeps _) fun _ h => h ▸ hkept
  have hcheck : Keeps workspacesDir name fs₀ (· = fs₀) (checkAttach workspacesDir name revision)
      fun _ => (· = fs₀) := by
    refine triple_of_only (stable_keeps _) ?_ (fun _ h => h ▸ hkept) only_checkAttach
    rintro op fs r fs' hop rfl ⟨hexec, -⟩
    obtain rfl := hop.same hexec
    exact ⟨hkept, rfl⟩
  have hcreate (epoch : String) : Triple carefulExec (fun _ _ => False)
      (fun _ => KeptFrom workspacesDir name fs₀) (AllBackedUp workspacesDir name fs₀)
      (createWorkspace workspacesDir name epoch) (fun _ => AllBackedUp workspacesDir name fs₀)
      (AllBackedUp workspacesDir name fs₀) := by
    refine triple_of_only (stable_keeps _) ?_ (fun _ h => h) (only_createWorkspace epoch)
    intro op fs r fs' hop hfs hexec
    have hfs' := hfs.step hop hexec.1
    exact ⟨hfs'.kept, hfs'⟩
  refine keeps_bind hcheck fun epoch => ?_
  have hbackup : Keeps workspacesDir name fs₀ (· = fs₀)
      (backupWorkspaceContents (workspacePlace workspacesDir name)
        (backupPlace workspacesDir name)) fun _ => AllBackedUp workspacesDir name fs₀ := by
    refine keeps_backupWorkspaceContents.of_imp (stable_keeps _) ?_
    rintro _ rfl
    exact hstart
  refine keeps_bind hbackup fun _ => ?_
  refine keeps_bind ?_ fun created => keeps_restoreBackup epoch created
  refine (triple_asOption (fun _ => stable_keeps _) (stable_keeps _) (hcreate epoch)).imp ?_
    fun _ h => h
  rintro (_ | u) fs h
  · exact h
  · exact h

/-- No file is lost, and at the end of an attach that succeeds or that reports that the files are
restored all of them are back. -/
theorem attach_keeps_files (workspacesDir : List String) (name : String)
    (revision : Option String) {fs fs' : FileTree β}
    {q : Prog AttachAction (fun op => Except AttachError op.Ret) AttachOutcome}
    (h : Prog.Runs carefulExec (attach workspacesDir name revision) fs q fs') :
    Kept (localFiles workspacesDir name fs) (workspacePlace workspacesDir name)
      (backupPlace workspacesDir name) fs' ∧
    (q = .done .attached ∨ q = .done .restored →
      InPlace (localFiles workspacesDir name fs) (workspacePlace workspacesDir name) fs') := by
  have hmeets : Meets carefulExec (fun _ _ => False)
      (fun _ => KeptFrom workspacesDir name fs)
      (fun outcome fs' => outcome = .attached ∨ outcome = .restored →
        AllBack workspacesDir name fs fs') (attach workspacesDir name revision) (· = fs) := by
    refine meets_bind (keeps_attachSteps revision) fun r => meets_done (stable_keeps _) ?_
    rcases r with e | b
    · rintro fs' - (hout | hout)
      · cases hout
      · cases hout
    · exact fun fs' hfs' _ => hfs'
  constructor
  · have hstart : KeptFrom workspacesDir name fs fs :=
      kept_of_unmoved fun n => .inl (unmoved_start n)
    have hamid : Prog.RunsAmid carefulExec (fun _ _ => False) (attach workspacesDir name revision)
        fs q fs' := h.amid
    exact hamid.invariant (fun _ _ h => h.elim) hmeets rfl hstart
  · rintro (rfl | rfl)
    · exact hmeets.runs rfl h (.inl rfl)
    · exact hmeets.runs rfl h (.inr rfl)

end Steps

/-! ### A file that is lost -/

section Lost

/-- A workspace with one file. -/
def attachTree : FileTree ℕ := fun p =>
  if p = [] ∨ p = ["w"] then some (.dir true true)
  else if p = ["w", "a"] then some (.file 0)
  else none

/-- The backup directory was created. -/
def backupTree : FileTree ℕ := fun p =>
  if p = [".w-attach-backup"] then some (.dir true true) else attachTree p

/-- The file was moved to the backup. -/
def movedTree : FileTree ℕ := moved backupTree ["w", "a"] [".w-attach-backup", "a"]

variable {E : (op : AttachAction) → FileTree ℕ → Except AttachError op.Ret → FileTree ℕ → Prop}
  {fs fs' : FileTree ℕ}

/-- Calls that succeed as a careful one does. -/
def AllowsCareful (E : (op : AttachAction) → FileTree ℕ → Except AttachError op.Ret →
    FileTree ℕ → Prop) : Prop :=
  ∀ op fs v fs', AttachAction.exec op fs (.ok v) fs' → Careful op fs (.ok v) → E op fs (.ok v) fs'

theorem returns_exists (hE : AllowsCareful E) (place : List String) :
    Returns E (invoke (.exists_ place)) fs (followed fs AttachAction.maxLinks place).isSome fs :=
  returns_attempt.mpr (hE (.exists_ place) _ _ _ ⟨rfl, rfl⟩ trivial)

theorem returns_workspaceExists (hE : AllowsCareful E)
    (hthere : (followed fs AttachAction.maxLinks ["w"]).isSome = true) :
    Returns E (workspaceExists [] "w") fs false fs := by
  refine returns_bind.mpr ⟨true, fs, hthere ▸ returns_exists hE ["w"], ?_⟩
  exact returns_attempt.mpr (hE (.worktreeListed "w") _ _ _ ⟨rfl, _, rfl⟩ trivial)

theorem returns_checkAttach (hE : AllowsCareful E) :
    Returns E (checkAttach [] "w" none) attachTree "e" attachTree := by
  have hthere : (followed attachTree AttachAction.maxLinks ["w"]).isSome = true := by
    decide +kernel
  have hcall (a : AttachAction) (v : a.Ret) (h : AttachAction.exec a attachTree (.ok v) attachTree)
      (hcareful : Careful a attachTree (.ok v)) : Returns E (invoke a) attachTree v attachTree :=
    returns_attempt.mpr (hE a _ _ _ h hcareful)
  refine returns_bind.mpr ⟨(), _, hcall .repoRoot () ⟨rfl, nofun⟩ trivial, ?_⟩
  refine returns_bind.mpr ⟨(), _, hcall (.workspacePath "w") () ⟨rfl, nofun⟩ trivial, ?_⟩
  refine returns_bind.mpr ⟨true, _, hthere ▸ returns_exists hE ["w"], ?_⟩
  refine returns_bind.mpr ⟨(), _, hcall .getBackend () ⟨rfl, nofun⟩ trivial, ?_⟩
  refine returns_bind.mpr ⟨(), _, hcall (.workspaceId "w") () ⟨rfl, nofun⟩ trivial, ?_⟩
  refine returns_bind.mpr ⟨false, _, returns_workspaceExists hE hthere, ?_⟩
  exact hcall (.resolveEpoch none) "e" ⟨rfl, nofun⟩ trivial

theorem returns_backup (hE : AllowsCareful E) :
    Returns E (backupWorkspaceContents ["w"] [".w-attach-backup"]) attachTree () movedTree := by
  have hadded : DirsAdded attachTree backupTree := by
    intro p
    by_cases hp : p = [".w-attach-backup"]
    · subst hp
      exact .inr ⟨by decide +kernel, by decide +kernel⟩
    · exact .inl (if_neg hp)
  have hlisted : ∀ name below, (backupTree (["w"] ++ name :: below)).isSome → name ∈ ["a"] := by
    intro name below h
    by_contra hname
    simp [backupTree, attachTree] at h hname
    exact hname h.1
  have hrename : Renamable backupTree ["w", "a"] [".w-attach-backup", "a"] := by
    refine ⟨by decide +kernel, by decide +kernel, by decide +kernel, .inl fun below => ?_⟩
    simp [backupTree, attachTree]
  refine returns_bind.mpr ⟨(), backupTree, returns_attempt.mpr (hE (.createDirAll _) _ _ _
    ⟨hadded, .inl ⟨rfl, by decide +kernel⟩⟩ trivial), ?_⟩
  refine returns_bind.mpr ⟨["a"], backupTree, returns_attempt.mpr (hE (.readDir _ .backup) _ _ _
    (.inl ⟨rfl, by decide +kernel, ["a"], rfl, by decide, ?_⟩) ⟨nofun, ?_⟩), ?_⟩
  · intro name hname
    obtain rfl := List.mem_singleton.mp hname
    exact ⟨[], by decide +kernel⟩
  · rintro names ⟨⟩
    exact hlisted
  have hmove : Returns E (moveAll ["w"] [".w-attach-backup"] ["a"]) backupTree () movedTree := by
    refine returns_bind.mpr ⟨(), movedTree, returns_attempt.mpr (hE (.rename _ _ .backup) _ _ _
      (.inl ⟨hrename, rfl, rfl⟩) ?_), returns_pure.mpr ⟨rfl, rfl⟩⟩
    intro node hnode
    have hnone : backupTree [".w-attach-backup", "a"] = none := by decide +kernel
    exact absurd (hnone.symm.trans hnode) nofun
  have hgit : (followed movedTree AttachAction.maxLinks ["w", ".git"]).isSome = false := by
    decide +kernel
  have hjj : (followed movedTree AttachAction.maxLinks ["w", ".jj"]).isSome = false := by
    decide +kernel
  refine returns_bind.mpr ⟨(), movedTree, hmove, ?_⟩
  refine returns_bind.mpr ⟨(), movedTree, ?_, ?_⟩
  · exact returns_bind.mpr ⟨false, _, hgit ▸ returns_exists hE _, returns_pure.mpr ⟨rfl, rfl⟩⟩
  · exact returns_bind.mpr ⟨false, _, hjj ▸ returns_exists hE _, returns_pure.mpr ⟨rfl, rfl⟩⟩

/-- An attach whose backup succeeds goes on with the creation of the worktree. -/
theorem runs_attach (hE : AllowsCareful E) {mid : FileTree ℕ} {created : Except AttachError Unit}
    (hcreate : Prog.Runs E (createWorkspace [] "w" "e").run movedTree (.done created) mid)
    (hrestore : Returns E (restoreBackup [] "w" "e" created.toOption) mid false fs') :
    Prog.Runs E (attach [] "w" none) attachTree (.done .restored) fs' := by
  have hsteps : Returns E (attachSteps [] "w" none) attachTree false fs' := by
    have hbackup : backupPlace [] "w" = [".w-attach-backup"] := by decide +kernel
    rw [attachSteps, if_neg (by decide), hbackup]
    refine returns_bind.mpr ⟨"e", _, returns_checkAttach hE, ?_⟩
    refine returns_bind.mpr ⟨(), _, returns_backup hE, ?_⟩
    exact returns_bind.mpr ⟨_, mid, returns_asOption.mpr ⟨created, hcreate, rfl⟩, hrestore⟩
  exact runs_bind_done.mpr ⟨.ok false, fs', hsteps, .refl _ _⟩

/-- A creation that comes to remove the workspace directory and fails. -/
theorem runs_createWorkspace (hE : AllowsCareful E) {mid : FileTree ℕ}
    (hfail : Prog.Runs E (createWorkspaceNew [] "w" "e").run movedTree (.done (.error .call)) mid) :
    Prog.Runs E (createWorkspace [] "w" "e").run movedTree (.done (.error .call)) mid := by
  have hthere : (followed movedTree AttachAction.maxLinks ["w"]).isSome = true := by
    decide +kernel
  exact (returns_workspaceExists hE hthere).bind_runs hfail

/-- The workspace directory was removed. -/
def goneTree : FileTree ℕ := removed movedTree ["w"]

theorem movedTree_listed {name : String} {below : List String}
    (h : (movedTree ([".w-attach-backup"] ++ name :: below)).isSome) : name ∈ ["a"] := by
  by_contra hname
  have hne : "a" ≠ name := fun heq => hname (by rw [heq]; exact List.mem_singleton_self _)
  simp [movedTree, moved, backupTree, attachTree, hne] at h

/-- The worktree cannot be created once the directory is removed, the file cannot be moved back, and
it is removed with the backup. -/
theorem attach_loses_file : ∃ fs', Prog.Runs AttachAction.exec (attach [] "w" none) attachTree
    (.done .restored) fs' ∧
      ¬ Kept (localFiles [] "w" attachTree) (workspacePlace [] "w") (backupPlace [] "w") fs' := by
  have hE : AllowsCareful AttachAction.exec := fun _ _ _ _ h _ => h
  have hbackup : backupPlace [] "w" = [".w-attach-backup"] := by decide +kernel
  have hcreate : Prog.Runs AttachAction.exec (createWorkspaceNew [] "w" "e").run movedTree
      (.done (.error .call)) goneTree := by
    have hthere : (followed movedTree AttachAction.maxLinks ["w"]).isSome = true := by
      decide +kernel
    have hstale : Returns AttachAction.exec (removeStaleDir ["w"]) movedTree () goneTree :=
      returns_bind.mpr ⟨true, _, hthere ▸ returns_exists hE ["w"],
        returns_attempt.mpr (.inl ⟨by decide +kernel, rfl, rfl⟩)⟩
    refine hstale.bind_runs ?_
    refine ignoreError_bind_runs (r := .ok ()) ⟨rfl, nofun⟩ ?_
    refine attempt_bind_runs (a := ()) ⟨fun p => .inl rfl, .inl ⟨rfl, by decide +kernel⟩⟩ ?_
    have hparse : Prog.Runs AttachAction.exec (invoke (.parseOid "e")).run goneTree
        (.done (.error .call)) goneTree :=
      runs_attempt_done.mpr ⟨rfl, fun e he => (Except.error.inj he).symm⟩
    exact Prog.Runs.bind_left hparse (ExceptT.bindCont _)
  have hlist : AttachAction.exec (.readDir [".w-attach-backup"] .bestEffort) goneTree (.ok ["a"])
      goneTree := by
    refine .inl ⟨rfl, by decide +kernel, ["a"], rfl, by decide, fun name hname => ?_⟩
    obtain rfl := List.mem_singleton.mp hname
    exact ⟨[], by decide +kernel⟩
  have hrestore : Returns AttachAction.exec (restoreBackup [] "w" "e" none) goneTree false
      (removed goneTree [".w-attach-backup"]) := by
    rw [restoreBackup, hbackup]
    refine returns_bind.mpr ⟨(), goneTree, ?_, returns_bind.mpr ⟨(), _, ?_,
      returns_pure.mpr ⟨rfl, rfl⟩⟩⟩
    · refine returns_bind.mpr ⟨some ["a"], goneTree, returns_asOption.mpr
        ⟨.ok ["a"], runs_attempt_done.mpr hlist, rfl⟩, ?_⟩
      refine returns_bind.mpr ⟨(), goneTree, returns_ignoreError.mpr ⟨.error .call, ?_⟩,
        returns_pure.mpr ⟨rfl, rfl⟩⟩
      exact runs_attempt_done.mpr (.inr ⟨rfl, rfl⟩)
    · exact returns_ignoreError.mpr ⟨.ok (), runs_attempt_done.mpr
        (.inl ⟨by decide +kernel, rfl, rfl⟩)⟩
  refine ⟨_, runs_attach hE (runs_createWorkspace hE hcreate) hrestore, fun hkept => ?_⟩
  have hfile : localFiles [] "w" attachTree ["a"] (.file 0) :=
    ⟨rfl, by decide, .inl ⟨by decide +kernel, by decide, by decide⟩⟩
  rw [hbackup] at hkept
  rcases hkept ["a"] _ hfile with h | h
  · exact absurd h (by decide +kernel)
  · exact absurd h (by decide +kernel)

/-- The file is moved back when the workspace directory cannot be removed. -/
theorem attach_keeps_files_restored : ∃ fs', Prog.Runs carefulExec (attach [] "w" none) attachTree
    (.done .restored) fs' ∧
      InPlace (localFiles [] "w" attachTree) (workspacePlace [] "w") fs' := by
  have hE : AllowsCareful (carefulExec (β := ℕ)) := fun _ _ _ _ h hcareful => ⟨h, hcareful⟩
  have hbackup : backupPlace [] "w" = [".w-attach-backup"] := by decide +kernel
  have hcreate : Prog.Runs carefulExec (createWorkspaceNew [] "w" "e").run movedTree
      (.done (.error .call)) movedTree := by
    have hthere : (followed movedTree AttachAction.maxLinks ["w"]).isSome = true := by
      decide +kernel
    have hstale : Prog.Runs carefulExec (removeStaleDir ["w"]).run movedTree
        (.done (.error .call)) movedTree :=
      (hthere ▸ returns_exists hE ["w"]).bind_runs (runs_attempt_done.mpr
        ⟨.inr ⟨rfl, fun _ _ => rfl, fun _ => .inr rfl⟩, trivial⟩)
    exact Prog.Runs.bind_left hstale (ExceptT.bindCont _)
  have hrename : Renamable movedTree [".w-attach-backup", "a"] ["w", "a"] := by
    refine ⟨by decide +kernel, by decide +kernel, by decide +kernel, .inl fun below => ?_⟩
    simp [movedTree, moved]
  have hrestore : Returns carefulExec (restoreBackup [] "w" "e" none) movedTree false
      (removed (moved movedTree [".w-attach-backup", "a"] ["w", "a"]) [".w-attach-backup"]) := by
    rw [restoreBackup, hbackup]
    refine returns_bind.mpr ⟨(), moved movedTree [".w-attach-backup", "a"] ["w", "a"], ?_,
      returns_bind.mpr ⟨(), _, ?_, returns_pure.mpr ⟨rfl, rfl⟩⟩⟩
    · refine returns_bind.mpr ⟨some ["a"], movedTree, returns_asOption.mpr
        ⟨.ok ["a"], runs_attempt_done.mpr ⟨?_, (by rintro - e h; cases h), ?_⟩, rfl⟩, ?_⟩
      · refine .inl ⟨rfl, by decide +kernel, ["a"], rfl, by decide, fun name hname => ?_⟩
        obtain rfl := List.mem_singleton.mp hname
        exact ⟨[], by decide +kernel⟩
      · rintro names ⟨⟩ name below
        exact movedTree_listed
      · refine returns_bind.mpr ⟨(), _, returns_ignoreError.mpr ⟨.ok (), ?_⟩,
          returns_pure.mpr ⟨rfl, rfl⟩⟩
        exact runs_attempt_done.mpr ⟨.inl ⟨hrename, rfl, rfl⟩, by intro e h; cases h⟩
    · exact returns_ignoreError.mpr ⟨.ok (), runs_attempt_done.mpr
        ⟨.inl ⟨by decide +kernel, rfl, rfl⟩, trivial⟩⟩
  have hrun := runs_attach hE (runs_createWorkspace hE hcreate) hrestore
  exact ⟨_, hrun, (attach_keeps_files [] "w" none hrun).2 (.inr rfl)⟩

end Lost

end Maw.Backend
