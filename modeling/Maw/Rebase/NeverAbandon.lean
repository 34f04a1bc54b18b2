import Maw.Rebase.HeadMoves

/-!
# No commit of a workspace is abandoned

A commit that was the HEAD of a workspace is kept while it is an ancestor of HEAD or of a branch,
or while a copy of it is. Commits that are made in the workspace keep all others. An operation
gives up commits only where it detaches HEAD at a commit: when a commit was made since it last
read HEAD, when the base that its walk starts from is not in the history of the epoch, or when the
walk passes over a commit without parents.

## Main definitions

* `NoneAbandoned` — every commit that was HEAD is kept.
* `SafeMove` — the states in which HEAD may be moved.

## Main results

* `Ready.setHead` — a safe move of HEAD after a replay keeps all commits.
* `noneAbandoned_of_run` — in a run in which all moves are safe, no commit is ever abandoned.
-/

open Interleaved

namespace Maw.Sync

/-! ### Commits that are kept -/

section Kept

def WsRepo.OnHead (repo : WsRepo) (c : GitOid) : Prop :=
  ∃ head, repo.headCommit = some head ∧ repo.commits.IsAncestor c head

def WsRepo.OnBranch (repo : WsRepo) (c : GitOid) : Prop :=
  ∃ name tip, repo.branches.lookup name = some tip ∧ repo.commits.IsAncestor c tip

/-- The commit or a copy of it is in the history of HEAD or of a branch. -/
def SyncState.Kept (s : SyncState) (c : GitOid) : Prop :=
  (s.repo.OnHead c ∨ s.repo.OnBranch c) ∨
    ∃ copy, (c, copy) ∈ s.copies ∧ (s.repo.OnHead copy ∨ s.repo.OnBranch copy)

/-- Every commit that was HEAD is kept. -/
def NoneAbandoned (s : SyncState) : Prop := ∀ c ∈ s.seen, s.Kept c

variable {repo : WsRepo} {c oid : GitOid}

/-- On a branch HEAD keeps nothing that the branch does not keep. -/
theorem WsRepo.Attached.onBranch (h : repo.Attached) (hc : repo.OnHead c) : repo.OnBranch c := by
  obtain ⟨name, hname⟩ := h
  obtain ⟨head, hhead, hanc⟩ := hc
  rw [WsRepo.headCommit, hname] at hhead
  exact ⟨name, head, hhead, hanc⟩

theorem WsRepo.attached_of_headCommit_eq_none (h : repo.headCommit = none) : repo.Attached := by
  rw [WsRepo.headCommit] at h
  cases hhead : repo.head with
  | detached oid => simp [hhead, HeadRef.commit] at h
  | branch name => exact ⟨name, hhead⟩

variable {commit : Commit} {commits : CommitStore} (h : repo.commits.Adds oid commit commits)

@[simp]
theorem WsRepo.headCommit_land : (repo.land h).headCommit = some oid := by
  obtain ⟨_, head, _, _, _, _⟩ := repo
  cases head with
  | detached _ => rfl
  | branch name => exact Finmap.lookup_insert _

@[simp]
theorem WsRepo.commits_land : (repo.land h).commits = commits := by
  obtain ⟨_, head, _, _, _, _⟩ := repo
  cases head <;> rfl

theorem WsRepo.Attached.land (ha : repo.Attached) : (repo.land h).Attached := by
  obtain ⟨name, hname⟩ := ha
  obtain ⟨_, head, _, _, _, _⟩ := repo
  obtain rfl : head = .branch name := hname
  exact ⟨name, rfl⟩

theorem WsRepo.OnHead.land (hc : repo.OnHead c)
    (htop : ∀ head, repo.headCommit = some head → commits.IsAncestor head oid) :
    (repo.land h).OnHead c := by
  obtain ⟨head, hhead, hanc⟩ := hc
  refine ⟨oid, WsRepo.headCommit_land h, ?_⟩
  rw [WsRepo.commits_land]
  exact (h.isAncestor hanc).trans (htop head hhead)

/-- A branch that HEAD names keeps its history when the new commit is on top of it. -/
theorem WsRepo.OnBranch.land (hc : repo.OnBranch c)
    (htop : ∀ head, repo.headCommit = some head → commits.IsAncestor head oid) :
    (repo.land h).OnBranch c := by
  obtain ⟨name, tip, htip, hanc⟩ := hc
  have hanc' := h.isAncestor hanc
  obtain ⟨_, head, branches, _, _, _⟩ := repo
  cases head with
  | detached _ => exact ⟨name, tip, htip, hanc'⟩
  | branch current =>
    by_cases heq : name = current
    · subst heq
      exact ⟨name, oid, Finmap.lookup_insert _, hanc'.trans (htop tip htip)⟩
    · exact ⟨name, tip, (Finmap.lookup_insert_of_ne _ heq).trans htip, hanc'⟩

end Kept

/-! ### Commits that are made in the workspace -/

section Landed

/-- What changes when a commit is made. -/
structure Landed (s s' : SyncState) : Prop where
  isAncestor : ∀ c d, s.repo.commits.IsAncestor c d → s'.repo.commits.IsAncestor c d
  isAncestor_of_mem : ∀ c d, d ∈ s.repo.commits.nodes → s'.repo.commits.IsAncestor c d →
    s.repo.commits.IsAncestor c d
  mem : ∀ c ∈ s.repo.commits.nodes, c ∈ s'.repo.commits.nodes
  parents : ∀ c ps, s.repo.parents c = some ps → s'.repo.parents c = some ps
  new : ∀ c ∈ s'.repo.commits.nodes, c ∈ s.repo.commits.nodes ∨ s'.repo.headCommit = some c
  attached : s.repo.Attached → s'.repo.Attached
  onHead : ∀ c, s.repo.OnHead c → s'.repo.OnHead c
  onBranch : ∀ c, s.repo.OnBranch c → s'.repo.OnBranch c
  seen : ∀ c ∈ s'.seen, c ∈ s.seen ∨ s'.repo.OnHead c
  copies : s'.copies = s.copies
  lastRead : s'.lastRead = s.lastRead
  lastWalk : s'.lastWalk = s.lastWalk

theorem parents_of_adds {repo : WsRepo} {oid : GitOid} {commit : Commit} {commits : CommitStore}
    (h : repo.commits.Adds oid commit commits) {c : GitOid} {ps : List GitOid}
    (hc : repo.parents c = some ps) : (commits.nodes.lookup c).map (·.parents) = some ps := by
  obtain ⟨node, hnode, rfl⟩ := Option.map_eq_some_iff.mp hc
  rw [h.lookup hnode]
  rfl

theorem landed_of_lands {s s' : SyncState} (h : Lands s s') : Landed s s' := by
  obtain ⟨oid, commit, commits, hparent, hadds, rfl⟩ := h
  have htop : ∀ head, s.repo.headCommit = some head → commits.IsAncestor head oid := by
    intro head hhead
    rw [hhead] at hparent
    exact (hadds.parentOf_self (List.mem_of_mem_head? hparent)).isAncestor
  have hcommits : (s.repo.land hadds).commits = commits := WsRepo.commits_land hadds
  refine ⟨?_, ?_, ?_, ?_, ?_, fun ha => ha.land hadds,
    fun c hc => hc.land hadds htop, fun c hc => hc.land hadds htop, ?_, rfl, rfl, rfl⟩
  · intro c d hcd
    show (s.repo.land hadds).commits.IsAncestor c d
    rw [hcommits]
    exact hadds.isAncestor hcd
  · intro c d hd hcd
    change (s.repo.land hadds).commits.IsAncestor c d at hcd
    rw [hcommits] at hcd
    exact hadds.isAncestor_of_mem hd hcd
  · intro c hc
    show c ∈ (s.repo.land hadds).commits.nodes
    rw [hcommits]
    exact hadds.mem hc
  · intro c ps hc
    show ((s.repo.land hadds).commits.nodes.lookup c).map (·.parents) = some ps
    rw [hcommits]
    exact parents_of_adds hadds hc
  · intro c hc
    change c ∈ (s.repo.land hadds).commits.nodes at hc
    rw [hcommits] at hc
    show c ∈ s.repo.commits.nodes ∨ (s.repo.land hadds).headCommit = some c
    rw [WsRepo.headCommit_land]
    clear htop hparent hcommits
    rcases hadds with ⟨-, rfl⟩ | ⟨hnew, hparents, rfl⟩
    · exact .inl hc
    · rcases NodeStore.mem_add.mp hc with rfl | hc
      · exact .inr rfl
      · exact .inl hc
  · rintro c (rfl | hc)
    · exact .inr ⟨c, WsRepo.headCommit_land hadds, NodeStore.IsAncestor.refl c⟩
    · exact .inl hc

end Landed

/-! ### Safe moves of HEAD -/

section Safe

/-- The commit is in the history of the epoch, of a branch, or of what a merge commit of the walk
merged into HEAD. -/
def SyncState.InEpochOrMerged (s : SyncState) (walk : Walk) (epoch c : GitOid) : Prop :=
  s.repo.commits.IsAncestor c epoch ∨ s.repo.OnBranch c ∨
    ∃ merge ∈ walk.commits, ∃ ps, s.repo.parents merge = some ps ∧
      ∃ side ∈ ps.tail, s.repo.commits.IsAncestor c side

/-- No commit is lost when HEAD is moved: HEAD is on a branch, or it is what was read last, and
either HEAD is in the history of the epoch, or the commits that are not replayed are: those of
the base and those without parents. -/
def SafeMove (s : SyncState) (epoch : GitOid) : Prop :=
  s.repo.Attached ∨ s.repo.headCommit = s.lastRead ∧
    ((∃ head, s.repo.headCommit = some head ∧ s.repo.commits.IsAncestor head epoch) ∨
      ∃ walk, s.lastWalk = some walk ∧ ∀ c ∈ s.seen, s.repo.OnHead c →
        s.repo.commits.IsAncestor c walk.base ∨ c ∈ walk.commits ∧ s.repo.parents c = some [] →
          s.InEpochOrMerged walk epoch c)

/-- The steps of which the moves of HEAD are safe. -/
def safeExec (op : SyncOp) (s : SyncState) (r : Except SyncError op.Ret) (s' : SyncState) : Prop :=
  op.exec s r s' ∧ ∀ oid epoch, op = .setHead oid epoch → SafeMove s epoch

/-- The replay of a walk up to some of its commits. -/
structure ChainTo (s : SyncState) (walk : Walk) (epoch tip : GitOid) (done : List GitOid) :
    Prop where
  lastWalk : s.lastWalk = some walk
  head_mem : walk.head ∈ s.repo.commits.nodes
  covers : ∀ c, s.repo.commits.IsAncestor c walk.head →
    s.repo.commits.IsAncestor c walk.base ∨ c ∈ walk.commits
  epoch : s.repo.commits.IsAncestor epoch tip
  copies : ∀ c copy, (c, copy) ∈ s.copies → s.repo.commits.IsAncestor copy tip
  copied : ∀ c ∈ done, ∃ ps, s.repo.parents c = some ps ∧
    (ps ≠ [] → (∃ copy, (c, copy) ∈ s.copies) ∧ ∀ side ∈ ps.tail, s.repo.commits.IsAncestor side tip)

/-- The whole walk is replayed, and HEAD was its head when it was last read. -/
def Ready (epoch tip : GitOid) (s : SyncState) : Prop :=
  NoneAbandoned s ∧ ∃ walk, s.lastRead = some walk.head ∧ ChainTo s walk epoch tip walk.commits

variable {s s' : SyncState} {walk : Walk} {epoch tip oid c : GitOid} {done : List GitOid}

theorem Landed.noneAbandoned (h : Landed s s') (hs : NoneAbandoned s) : NoneAbandoned s' := by
  have hreached (x : GitOid) (hx : s.repo.OnHead x ∨ s.repo.OnBranch x) :
      s'.repo.OnHead x ∨ s'.repo.OnBranch x := hx.imp (h.onHead x) (h.onBranch x)
  intro c hc
  rcases h.seen c hc with hc | hc
  · rcases hs c hc with hc | ⟨copy, hcopy, hx⟩
    · exact .inl (hreached c hc)
    · exact .inr ⟨copy, h.copies ▸ hcopy, hreached copy hx⟩
  · exact .inl (.inl hc)

theorem Landed.chainTo (h : Landed s s') (hs : ChainTo s walk epoch tip done) :
    ChainTo s' walk epoch tip done where
  lastWalk := h.lastWalk.trans hs.lastWalk
  head_mem := h.mem _ hs.head_mem
  covers c hc := (hs.covers c (h.isAncestor_of_mem _ _ hs.head_mem hc)).imp_left
    (h.isAncestor _ _)
  epoch := h.isAncestor _ _ hs.epoch
  copies c copy hcopy := h.isAncestor _ _ (hs.copies c copy (h.copies ▸ hcopy))
  copied c hc := by
    obtain ⟨ps, hps, hcopied⟩ := hs.copied c hc
    refine ⟨ps, h.parents c ps hps, fun hne => ?_⟩
    obtain ⟨⟨copy, hcopy⟩, hside⟩ := hcopied hne
    exact ⟨⟨copy, h.copies ▸ hcopy⟩, fun side hmem => h.isAncestor _ _ (hside side hmem)⟩

/-- Moving HEAD keeps the commits of its history that the new HEAD, a branch or a copy keeps. -/
theorem noneAbandoned_setHead (hs : NoneAbandoned s) {h : oid ∈ s.repo.commits.nodes}
    (hcopies : ∀ c copy, (c, copy) ∈ s.copies → s.repo.commits.IsAncestor copy oid)
    (hhead : s.repo.Attached ∨ ∀ c ∈ s.seen, s.repo.OnHead c →
      s.repo.commits.IsAncestor c oid ∨ s.repo.OnBranch c ∨ ∃ copy, (c, copy) ∈ s.copies) :
    NoneAbandoned { s with repo := s.repo.setHead oid h, seen := insert oid s.seen } := by
  have hnew (x : GitOid) (hx : s.repo.commits.IsAncestor x oid) :
      (s.repo.setHead oid h).OnHead x := ⟨oid, rfl, hx⟩
  rintro c (rfl | hc)
  · exact .inl (.inl (hnew c (NodeStore.IsAncestor.refl c)))
  rcases hs c hc with (hhead' | hbranch) | ⟨copy, hcopy, -⟩
  · rcases hhead with hattached | hhead
    · exact .inl (.inr (hattached.onBranch hhead'))
    · rcases hhead c hc hhead' with hanc | hbranch | ⟨copy, hcopy⟩
      · exact .inl (.inl (hnew c hanc))
      · exact .inl (.inr hbranch)
      · exact .inr ⟨copy, hcopy, .inl (hnew copy (hcopies c copy hcopy))⟩
  · exact .inl (.inr hbranch)
  · exact .inr ⟨copy, hcopy, .inl (hnew copy (hcopies c copy hcopy))⟩

/-- A safe move of HEAD to the tip of the replay keeps all commits: those of the walk have copies
below the tip, and the others are kept by the epoch, by a branch or by a merge. -/
theorem Ready.setHead (hready : Ready epoch tip s) (hsafe : SafeMove s epoch)
    (h : tip ∈ s.repo.commits.nodes) :
    NoneAbandoned { s with repo := s.repo.setHead tip h, seen := insert tip s.seen } := by
  obtain ⟨hs, walk, hread, hchain⟩ := hready
  refine noneAbandoned_setHead hs hchain.copies ?_
  rcases hsafe with hattached | ⟨hsame, hkept⟩
  · exact .inl hattached
  refine .inr fun c hc hhead => ?_
  rcases hkept with ⟨head, heq, hanc⟩ | ⟨walk', hwalk', hkept⟩
  · -- HEAD is in the history of the epoch, and so is the commit.
    obtain ⟨head', heq', hc'⟩ := hhead
    obtain rfl := Option.some.inj (heq.symm.trans heq')
    exact .inl ((hc'.trans hanc).trans hchain.epoch)
  obtain rfl : walk' = walk := Option.some.inj (hwalk'.symm.trans hchain.lastWalk)
  have hmerged (hc' : s.InEpochOrMerged walk' epoch c) :
      s.repo.commits.IsAncestor c tip ∨ s.repo.OnBranch c ∨ ∃ copy, (c, copy) ∈ s.copies := by
    rcases hc' with hepoch | hbranch | ⟨merge, hmerge, ps, hps, side, hside, hanc⟩
    · exact .inl (hepoch.trans hchain.epoch)
    · exact .inr (.inl hbranch)
    · obtain ⟨ps', hps', hcopied⟩ := hchain.copied merge hmerge
      obtain rfl := Option.some.inj (hps.symm.trans hps')
      have hne : ps ≠ [] := by
        rintro rfl
        simp at hside
      exact .inl (hanc.trans ((hcopied hne).2 side hside))
  have hwalk : s.repo.commits.IsAncestor c walk'.head := by
    obtain ⟨head, heq, hanc⟩ := hhead
    rw [hsame, hread] at heq
    exact Option.some.inj heq ▸ hanc
  rcases hchain.covers c hwalk with hbase | hmem
  · exact hmerged (hkept c hc hhead (.inl hbase))
  · obtain ⟨ps, hps, hcopied⟩ := hchain.copied c hmem
    rcases eq_or_ne ps [] with rfl | hne
    · exact hmerged (hkept c hc hhead (.inr ⟨hmem, hps⟩))
    · exact .inr (.inr (hcopied hne).1)

end Safe

/-! ### Triples of the steps -/

section Steps

/-- A triple of the operations: commits may be made between any two steps, and no step abandons
one. -/
abbrev SyncTriple {α : Type} (P : SyncState → Prop) (p : SyncProg α) (R : α → SyncState → Prop)
    (E : SyncState → Prop) : Prop :=
  Triple safeExec Lands (fun _ s' => NoneAbandoned s') P p R E

variable {op : SyncOp} {P E : SyncState → Prop} {α : Type}

theorem stable_of_landed (h : ∀ s s', Landed s s' → P s → P s') : Stable Lands P :=
  fun s s' hlands => h s s' (landed_of_lands hlands)

/-- An assertion that commits keep and under which no commit is abandoned. -/
structure Asserted (P : SyncState → Prop) : Prop where
  stable : Stable Lands P
  keeps : ∀ s, P s → NoneAbandoned s

theorem asserted_noneAbandoned : Asserted NoneAbandoned :=
  ⟨stable_of_landed fun _ _ h => h.noneAbandoned, fun _ hs => hs⟩

theorem Asserted.and {Q : SyncState → Prop} (hP : Asserted P) (hQ : Stable Lands Q) :
    Asserted fun s => P s ∧ Q s :=
  ⟨fun s s' hlands hs => ⟨hP.stable s s' hlands hs.1, hQ s s' hlands hs.2⟩,
    fun s hs => hP.keeps s hs.1⟩

/-- A fact that does not speak of the state. -/
theorem stable_const (c : Prop) : Stable Lands fun _ => c := fun _ _ _ h => h

theorem stable_imp {c : Prop} {Q : SyncState → Prop} (hQ : Stable Lands Q) :
    Stable Lands fun s => c → Q s := fun s s' hlands hs hc => hQ s s' hlands (hs hc)

/-- A step that fails does nothing. -/
theorem triple_step {R : op.Ret → SyncState → Prop} (hP : Asserted P)
    (hR : ∀ a, Asserted (R a)) (hE : Stable Lands E) (hPE : ∀ s, P s → E s)
    (h : ∀ s a s', P s → (∀ oid epoch, op = .setHead oid epoch → SafeMove s epoch) →
      op.effect s a s' → R a s') :
    SyncTriple P (attempt op) R E := by
  refine triple_attempt hP.stable (fun a => (hR a).stable) hE ?_
  rintro s (e | a) s' hs ⟨hexec, hsafe⟩
  · obtain rfl := hexec
    exact ⟨hP.keeps s' hs, hPE s' hs⟩
  · have ha := h s a s' hs hsafe hexec
    exact ⟨(hR a).keeps s' ha, ha⟩

/-- A step that only looks at the state. -/
theorem triple_look {Q : op.Ret → SyncState → Prop} (hP : Asserted P)
    (hQ : ∀ a, Stable Lands (Q a)) (hE : Stable Lands E) (hPE : ∀ s, P s → E s)
    (h : ∀ s a s', P s → op.effect s a s' → s' = s ∧ Q a s) :
    SyncTriple P (attempt op) (fun a s => P s ∧ Q a s) E := by
  refine triple_step hP (fun a => hP.and (hQ a)) hE hPE fun s a s' hs _ heffect => ?_
  obtain ⟨rfl, hq⟩ := h s a s' hs heffect
  exact ⟨hs, hq⟩

/-- A step of which the result does not matter. -/
theorem triple_quiet (hP : Asserted P) (hE : Stable Lands E) (hPE : ∀ s, P s → E s)
    (h : ∀ s a s', op.effect s a s' → s' = s) : SyncTriple P (attempt op) (fun _ => P) E := by
  refine triple_step hP (fun _ => hP) hE hPE fun s a s' hs _ heffect => ?_
  obtain rfl := h s a s' heffect
  exact hs

/-- A look at the state that may fail. -/
theorem triple_tryLook {Q : op.Ret → SyncState → Prop} (hP : Asserted P)
    (hQ : ∀ a, Stable Lands (Q a))
    (h : ∀ s a s', P s → op.effect s a s' → s' = s ∧ Q a s) :
    SyncTriple P (asOption (attempt op)) (fun o s => P s ∧ ∀ a, o = some a → Q a s) E := by
  have hoption : SyncTriple P (asOption (attempt op))
      (fun o s => o.elim (P s) fun a => P s ∧ Q a s) E :=
    triple_asOption (fun a => (hP.and (hQ a)).stable) hP.stable
      (triple_look hP hQ hP.stable (fun _ hs => hs) h)
  refine Meets.imp hoption ?_
  rintro (e | _ | a) s hs
  · exact hs
  · exact ⟨hs, by simp⟩
  · refine ⟨hs.1, ?_⟩
    rintro _ ⟨⟩
    exact hs.2

theorem triple_tryQuiet (hP : Asserted P) (h : ∀ s a s', op.effect s a s' → s' = s) :
    SyncTriple P (asOption (attempt op)) (fun _ => P) E := by
  have hlook : SyncTriple P (asOption (attempt op))
      (fun o s => P s ∧ ∀ a, o = some a → True) E :=
    triple_tryLook hP (fun _ => stable_const _) fun s a s' _ heffect => ⟨h s a s' heffect, trivial⟩
  refine Meets.imp hlook ?_
  rintro (e | o) s hs
  · exact hs
  · exact hs.1

/-- The record of the base is a ref of its own. -/
theorem triple_writeEpochRef (epoch : GitOid) : SyncTriple NoneAbandoned
    (ignoreError (attempt (SyncOp.writeEpochRef epoch))) (fun _ => NoneAbandoned) E := by
  have hwrite : SyncTriple NoneAbandoned (attempt (SyncOp.writeEpochRef epoch))
      (fun _ => NoneAbandoned) NoneAbandoned := by
    refine triple_step asserted_noneAbandoned (fun _ => asserted_noneAbandoned)
      asserted_noneAbandoned.stable (fun _ hs => hs) ?_
    rintro s a s' hs - rfl
    exact hs
  refine triple_ignoreError asserted_noneAbandoned.stable (Meets.imp hwrite ?_)
  rintro (e | a) s hs
  · exact hs
  · exact hs

theorem triple_requireResolved (epoch : GitOid) (hP : Asserted P) (hE : Stable Lands E)
    (hPE : ∀ s, P s → E s) :
    SyncTriple P (requireResolved epoch) (fun oid s => P s ∧ oid = epoch) E := by
  refine triple_bind hE (triple_look (Q := fun found _ => ∀ x, found = some x → x = epoch) hP
    (fun found => stable_const _) hE hPE ?_) ?_
  · rintro s found s' - ⟨hfound, rfl⟩
    exact ⟨rfl, fun x hx => ((hfound x).mp hx).1⟩
  · rintro (_ | oid)
    · exact triple_throw (hP.and (stable_const _)).stable fun s hs => hPE s hs.1
    · exact triple_pure (hP.and (stable_const _)).stable fun s hs => ⟨hs.1, hs.2 oid rfl⟩

/-- The assertions that do not depend on what was read last. -/
def ReadFree (P : SyncState → Prop) : Prop := ∀ s head, P s → P { s with lastRead := head }

/-- What is known of a HEAD that was read, whatever commits were made since. -/
structure SawHead (head : Option GitOid) (s : SyncState) : Prop where
  lastRead : s.lastRead = head
  attached : head = none → s.repo.Attached
  onHead : ∀ oid, head = some oid → s.repo.OnHead oid

theorem stable_sawHead (head : Option GitOid) : Stable Lands (SawHead head) :=
  stable_of_landed fun _ _ h hs => ⟨h.lastRead.trans hs.lastRead, fun he => h.attached (hs.attached he),
    fun oid he => h.onHead oid (hs.onHead oid he)⟩

theorem triple_readHead (hP : Asserted P) (hE : Stable Lands E) (hPE : ∀ s, P s → E s)
    (hfree : ReadFree P) :
    SyncTriple P (attempt SyncOp.readHead) (fun head s => P s ∧ SawHead head s) E := by
  refine triple_step hP (fun head => hP.and (stable_sawHead head)) hE hPE ?_
  rintro s head s' hs - ⟨rfl, rfl⟩
  refine ⟨hfree s _ hs, rfl, WsRepo.attached_of_headCommit_eq_none, fun oid he => ?_⟩
  exact ⟨oid, he, NodeStore.IsAncestor.refl oid⟩

theorem triple_requireHead (hP : Asserted P) (hE : Stable Lands E) (hPE : ∀ s, P s → E s)
    (hfree : ReadFree P) :
    SyncTriple P requireHead (fun head s => P s ∧ SawHead (some head) s) E := by
  refine triple_bind hE (triple_readHead hP hE hPE hfree) ?_
  rintro (_ | head)
  · exact triple_throw (hP.and (stable_sawHead _)).stable fun s hs => hPE s hs.1
  · exact triple_pure (hP.and (stable_sawHead _)).stable fun _ hs => hs

theorem triple_refuseDirty (hP : Asserted P) (hE : Stable Lands E) (hPE : ∀ s, P s → E s) :
    SyncTriple P refuseDirty (fun _ => P) E := by
  refine triple_bind hE (triple_quiet hP hE hPE fun _ _ _ h => h) fun dirty => ?_
  split_ifs
  · exact triple_throw hP.stable hPE
  · exact triple_pure hP.stable fun _ hs => hs

end Steps

/-! ### The fast forward -/

section FastForward

variable {P E : SyncState → Prop} {epoch : GitOid}

/-- Before an operation has replayed a commit. -/
def Fresh (s : SyncState) : Prop := NoneAbandoned s ∧ s.copies = ∅

theorem asserted_fresh : Asserted Fresh :=
  ⟨stable_of_landed fun _ _ h hs => ⟨h.noneAbandoned hs.1, h.copies.trans hs.2⟩,
    fun _ hs => hs.1⟩

theorem readFree_fresh : ReadFree Fresh := fun _ _ hs => hs

/-- What the last look at HEAD says about a move to the epoch: HEAD is on a branch, or what was
read is in the history of the epoch as soon as the epoch is stored. -/
def Forward (epoch : GitOid) (s : SyncState) : Prop :=
  s.repo.Attached ∨ ∃ head, s.lastRead = some head ∧ s.repo.OnHead head ∧
    (epoch ∈ s.repo.commits.nodes → s.repo.commits.IsAncestor head epoch)

theorem stable_forward : Stable Lands (Forward epoch) := by
  refine stable_of_landed fun s s' h hs => ?_
  rcases hs with hattached | ⟨head, hread, hhead, hanc⟩
  · exact .inl (h.attached hattached)
  refine .inr ⟨head, h.lastRead.trans hread, h.onHead head hhead, fun hmem => ?_⟩
  rcases h.new epoch hmem with hold | hnew
  · exact h.isAncestor _ _ (hanc hold)
  · -- The epoch is the commit that was made, on top of HEAD.
    obtain ⟨current, hcurrent, hanc'⟩ := h.onHead head hhead
    exact Option.some.inj (hcurrent.symm.trans hnew) ▸ hanc'

theorem Forward.setHead {s : SyncState} (h : Forward epoch s) (hs : Fresh s)
    (hsafe : SafeMove s epoch) (hmem : epoch ∈ s.repo.commits.nodes) :
    NoneAbandoned { s with repo := s.repo.setHead epoch hmem, seen := insert epoch s.seen } := by
  refine noneAbandoned_setHead hs.1 (by simp [hs.2]) ?_
  rcases h with hattached | ⟨head, hread, -, hanc⟩
  · exact .inl hattached
  rcases hsafe with hattached | ⟨hsame, -⟩
  · exact .inl hattached
  refine .inr fun c hc hhead => .inl ?_
  obtain ⟨current, hcurrent, hanc'⟩ := hhead
  rw [hsame, hread] at hcurrent
  exact (Option.some.inj hcurrent ▸ hanc').trans (hanc hmem)

theorem stable_attached : Stable Lands fun s => s.repo.Attached :=
  stable_of_landed fun _ _ h => h.attached

/-- What was read and is in the history of the epoch stays there. -/
theorem stable_inEpoch (head : GitOid) :
    Stable Lands fun s => s.repo.commits.IsAncestor head epoch :=
  stable_of_landed fun _ _ h => h.isAncestor _ _

theorem asserted_forward : Asserted fun s => Fresh s ∧ Forward epoch s :=
  asserted_fresh.and stable_forward

/-- The check of a detached HEAD against the epoch. -/
theorem triple_checkOrphans (head : GitOid) :
    SyncTriple (fun s => Fresh s ∧ SawHead (some head) s)
      (do
        match ← attempt (SyncOp.resolve epoch) with
        | some target => do
          let contained ← asOption (attempt (SyncOp.isAncestor head target))
          if head = target ∨ contained.getD false = true then pure ()
          else throw (.wouldOrphan head)
        | none => pure ())
      (fun _ s => Fresh s ∧ Forward epoch s) NoneAbandoned := by
  have hsaw := asserted_fresh.and (stable_sawHead (some head))
  have hE := asserted_noneAbandoned.stable
  refine triple_bind hE (R := fun found s => (Fresh s ∧ SawHead (some head) s) ∧
    (found = none → Forward epoch s) ∧ ∀ target, found = some target → target = epoch) ?_ ?_
  · refine triple_look hsaw (fun found s s' hlands hs =>
      ⟨fun he => stable_forward s s' hlands (hs.1 he), hs.2⟩) hE hsaw.keeps ?_
    rintro s found s' ⟨-, hread⟩ ⟨hfound, rfl⟩
    refine ⟨rfl, ?_, fun target ht => ((hfound target).mp ht).1⟩
    rintro rfl
    refine .inr ⟨head, hread.lastRead, hread.onHead head rfl, fun hmem => ?_⟩
    exact absurd ((hfound epoch).mpr ⟨rfl, hmem⟩) (by simp)
  · rintro (_ | target)
    · refine triple_pure (fun s s' hlands hs => ?_) fun s hs => ⟨hs.1.1, hs.2.1 rfl⟩
      exact ⟨hsaw.stable s s' hlands hs.1, fun he => stable_forward s s' hlands (hs.2.1 he), hs.2.2⟩
    · refine Triple.of_imp (P := fun s => (Fresh s ∧ SawHead (some head) s) ∧ target = epoch) ?_ ?_
        fun s hs => ⟨hs.1, hs.2.2 target rfl⟩
      · refine triple_bind hE (triple_tryLook
          (Q := fun contained s => contained = true → s.repo.commits.IsAncestor head target)
          (hsaw.and (stable_const _)) (fun _ => stable_imp (stable_inEpoch head)) ?_) ?_
        · rintro s contained s' - ⟨hcontained, rfl⟩
          exact ⟨rfl, hcontained.mp⟩
        · intro contained
          have hP : Asserted fun s => ((Fresh s ∧ SawHead (some head) s) ∧ target = epoch) ∧
              ∀ a, contained = some a → a = true → s.repo.commits.IsAncestor head target :=
            (hsaw.and (stable_const _)).and fun s s' hlands hs a ha hc =>
              stable_inEpoch head s s' hlands (hs a ha hc)
          split_ifs with h
          · refine triple_pure hP.stable ?_
            rintro s ⟨⟨⟨hfresh, hread⟩, rfl⟩, hanc⟩
            refine ⟨hfresh, .inr ⟨head, hread.lastRead, hread.onHead head rfl, fun _ => ?_⟩⟩
            rcases h with rfl | h
            · exact NodeStore.IsAncestor.refl head
            · cases contained with
              | none => simp at h
              | some contained => exact hanc contained rfl h
          · exact triple_throw hP.stable hP.keeps
      · intro s s' hlands hs
        exact ⟨hsaw.stable s s' hlands hs.1, fun he => stable_forward s s' hlands (hs.2.1 he),
          hs.2.2⟩

theorem triple_refuseOrphans (head : Option GitOid) :
    SyncTriple (fun s => Fresh s ∧ SawHead head s) (refuseOrphans head epoch)
      (fun _ s => Fresh s ∧ Forward epoch s) NoneAbandoned := by
  have hsaw := asserted_fresh.and (stable_sawHead head)
  have hE := asserted_noneAbandoned.stable
  refine triple_bind hE (triple_tryLook (Q := fun detached s => detached = false → s.repo.Attached)
    hsaw (fun _ => stable_imp stable_attached) ?_) ?_
  · rintro s detached s' - ⟨hdetached, rfl⟩
    refine ⟨rfl, ?_⟩
    rintro rfl
    by_contra hne
    exact Bool.false_ne_true (hdetached.mpr hne)
  · intro detached
    have hP : Asserted fun s => (Fresh s ∧ SawHead head s) ∧
        ∀ a, detached = some a → a = false → s.repo.Attached :=
      hsaw.and fun s s' hlands hs a ha hc => stable_attached s s' hlands (hs a ha hc)
    cases hd : detached.getD true with
    | false =>
      refine triple_pure hP.stable fun s hs => ⟨hs.1.1, .inl (hs.2 false ?_ rfl)⟩
      cases detached with
      | none => simp at hd
      | some d => simpa using hd
    | true =>
      cases head with
      | none => exact triple_pure hP.stable fun s hs => ⟨hs.1.1, .inl (hs.1.2.attached rfl)⟩
      | some head => exact (triple_checkOrphans head).of_imp hP.stable fun _ hs => hs.1

/-- The checkout of an epoch, from an assertion under which a safe move keeps all commits. -/
theorem triple_checkoutEpoch (hP : Asserted P)
    (hset : ∀ s, P s → SafeMove s epoch → ∀ h : epoch ∈ s.repo.commits.nodes,
      NoneAbandoned { s with repo := s.repo.setHead epoch h, seen := insert epoch s.seen }) :
    SyncTriple P (checkoutEpoch epoch) (fun _ => NoneAbandoned) NoneAbandoned := by
  have hE := asserted_noneAbandoned.stable
  refine triple_bind hE (triple_requireResolved epoch hP hE hP.keeps) fun oid => ?_
  refine triple_bind hE (triple_quiet (hP.and (stable_const _)) hE (fun s hs => hP.keeps s hs.1)
    fun _ _ _ h => h) fun _ => ?_
  refine triple_step (hP.and (stable_const _)) (fun _ => asserted_noneAbandoned) hE
    (fun s hs => hP.keeps s hs.1) ?_
  rintro s a s' ⟨hs, rfl⟩ hsafe ⟨h, rfl⟩
  exact hset s hs (hsafe _ _ rfl) h

theorem triple_syncWorktreeToEpoch (expectedHead : Option GitOid) :
    SyncTriple Fresh (syncWorktreeToEpoch epoch expectedHead) (fun _ => NoneAbandoned)
      NoneAbandoned := by
  have hE := asserted_noneAbandoned.stable
  refine triple_bind hE (triple_refuseDirty asserted_fresh hE asserted_fresh.keeps) fun _ => ?_
  refine triple_bind hE (triple_readHead asserted_fresh hE asserted_fresh.keeps readFree_fresh)
    fun head => ?_
  have hsaw := asserted_fresh.and (stable_sawHead head)
  split_ifs
  · exact triple_pure hsaw.stable hsaw.keeps
  · refine triple_bind hE (triple_refuseOrphans head) fun _ => ?_
    refine triple_bind hE (triple_checkoutEpoch asserted_forward fun s hs hsafe h =>
      hs.2.setHead hs.1 hsafe h) fun _ => ?_
    refine triple_bind hE (triple_writeEpochRef epoch) fun _ => ?_
    exact triple_pure hE fun _ hs => hs

theorem triple_fastForward (opts : RebaseRunOptions) :
    SyncTriple Fresh (fastForward opts epoch) (fun _ => NoneAbandoned) NoneAbandoned := by
  have hE := asserted_noneAbandoned.stable
  have hrecord (outcome : RebaseOutcome) : SyncTriple NoneAbandoned
      (do
        ignoreError (attempt (SyncOp.writeEpochRef epoch))
        pure outcome) (fun _ => NoneAbandoned) NoneAbandoned :=
    triple_bind hE (triple_writeEpochRef epoch) fun _ => triple_pure hE fun _ hs => hs
  rw [fastForward]
  split_ifs
  · refine triple_bind hE (triple_tryQuiet asserted_fresh fun _ _ _ h => h) ?_
    rintro (_ | _ | _)
    · exact (hrecord _).of_imp asserted_fresh.stable asserted_fresh.keeps
    · refine triple_bind hE (R := fun _ => NoneAbandoned) ?_ ?_
      · have hsync : SyncTriple Fresh (asOption (syncWorktreeToEpoch epoch none))
            (fun o s => o.elim (NoneAbandoned s) fun _ => NoneAbandoned s) NoneAbandoned :=
          triple_asOption (fun _ => hE) hE (triple_syncWorktreeToEpoch none)
        refine Meets.imp hsync ?_
        rintro (e | _ | a) s hs
        · exact hs
        · exact hs
        · exact hs
      · rintro (_ | outcome)
        · exact hrecord _
        · exact triple_pure hE fun _ hs => hs
    · exact (hrecord _).of_imp asserted_fresh.stable asserted_fresh.keeps
  · refine triple_bind hE (triple_syncWorktreeToEpoch none) fun _ => ?_
    exact triple_pure hE fun _ hs => hs
  · exact (hrecord _).of_imp asserted_fresh.stable asserted_fresh.keeps

end FastForward

/-! ### The replay -/

section Replay

variable {walk : Walk} {epoch tip : GitOid} {done : List GitOid} {s : SyncState}

/-- A replay up to some commits of the walk. -/
def Chained (walk : Walk) (epoch tip : GitOid) (done : List GitOid) (s : SyncState) : Prop :=
  NoneAbandoned s ∧ ChainTo s walk epoch tip done

theorem asserted_chained : Asserted (Chained walk epoch tip done) :=
  asserted_noneAbandoned.and (stable_of_landed fun _ _ h => h.chainTo)

theorem readFree_chained : ReadFree (Chained walk epoch tip done) := fun _ _ hs =>
  ⟨hs.1, hs.2.lastWalk, hs.2.head_mem, hs.2.covers, hs.2.epoch, hs.2.copies, hs.2.copied⟩

theorem asserted_ready : Asserted (Ready epoch tip) := by
  refine asserted_noneAbandoned.and (stable_of_landed fun s s' h hs => ?_)
  obtain ⟨walk, hread, hchain⟩ := hs
  exact ⟨walk, h.lastRead.trans hread, h.chainTo hchain⟩

/-- A commit without parents is passed over. -/
theorem ChainTo.skip {commit : GitOid} (h : ChainTo s walk epoch tip done)
    (hroot : s.repo.parents commit = some []) : ChainTo s walk epoch tip (done ++ [commit]) where
  lastWalk := h.lastWalk
  head_mem := h.head_mem
  covers := h.covers
  epoch := h.epoch
  copies := h.copies
  copied c hc := by
    rcases List.mem_append.mp hc with hc | hc
    · exact h.copied c hc
    · obtain rfl := List.mem_singleton.mp hc
      exact ⟨[], hroot, fun hne => absurd rfl hne⟩

/-- The copy of a commit is on top of the tip and of the commits that were merged. -/
theorem ChainTo.copy {original copy parent : GitOid} {sides : List GitOid} {commit : Commit}
    {commits : CommitStore} (h : ChainTo s walk epoch tip done)
    (hparents : s.repo.parents original = some (parent :: sides))
    (hcommit : commit.parents = tip :: sides) (hadds : s.repo.commits.Adds copy commit commits) :
    ChainTo
      { s with
        repo := s.repo.withCommits commits fun _ => hadds.mem
        copies := insert (original, copy) s.copies } walk epoch copy (done ++ [original]) := by
  have htop (x : GitOid) (hx : x ∈ tip :: sides) : commits.IsAncestor x copy :=
    (hadds.parentOf_self (hcommit ▸ hx)).isAncestor
  have htip (x : GitOid) (hx : s.repo.commits.IsAncestor x tip) : commits.IsAncestor x copy :=
    (hadds.isAncestor hx).trans (htop tip List.mem_cons_self)
  refine ⟨h.lastWalk, hadds.mem h.head_mem, fun c hc => ?_, htip _ h.epoch, ?_, fun c hc => ?_⟩
  · have hold := hadds.isAncestor_of_mem h.head_mem hc
    exact (h.covers c hold).imp_left hadds.isAncestor
  · rintro c x (hx | hx)
    · obtain ⟨rfl, rfl⟩ := Prod.mk.inj hx
      exact NodeStore.IsAncestor.refl x
    · exact htip x (h.copies c x hx)
  · rcases List.mem_append.mp hc with hc | hc
    · obtain ⟨ps, hps, hcopied⟩ := h.copied c hc
      refine ⟨ps, parents_of_adds hadds hps, fun hne => ?_⟩
      obtain ⟨⟨x, hx⟩, hside⟩ := hcopied hne
      exact ⟨⟨x, .inr hx⟩, fun side hmem => htip side (hside side hmem)⟩
    · obtain rfl := List.mem_singleton.mp hc
      exact ⟨parent :: sides, parents_of_adds hadds hparents, fun _ =>
        ⟨⟨copy, .inl rfl⟩, fun side hmem => htop side (List.mem_cons_of_mem tip hmem)⟩⟩

/-- A new copy keeps all commits. -/
theorem noneAbandoned_copy {original copy : GitOid} {commit : Commit} {commits : CommitStore}
    (hs : NoneAbandoned s) (hadds : s.repo.commits.Adds copy commit commits) :
    NoneAbandoned
      { s with
        repo := s.repo.withCommits commits fun _ => hadds.mem
        copies := insert (original, copy) s.copies } := by
  have hreached (x : GitOid) (hx : s.repo.OnHead x ∨ s.repo.OnBranch x) :
      (s.repo.withCommits commits fun _ => hadds.mem).OnHead x ∨
        (s.repo.withCommits commits fun _ => hadds.mem).OnBranch x := by
    rcases hx with ⟨head, hhead, hanc⟩ | ⟨name, tip, htip, hanc⟩
    · exact .inl ⟨head, hhead, hadds.isAncestor hanc⟩
    · exact .inr ⟨name, tip, htip, hadds.isAncestor hanc⟩
  intro c hc
  rcases hs c hc with hc | ⟨x, hx, hc⟩
  · exact .inl (hreached c hc)
  · exact .inr ⟨x, .inr hx, hreached x hc⟩

/-- The loop over the commits of the walk. -/
theorem triple_replayCommits (rest : List GitOid) : ∀ (done : List GitOid) (tip : GitOid)
    (replayed : Nat), done ++ rest = walk.commits →
    SyncTriple (Chained walk epoch tip done) (replayCommits tip replayed rest)
      (fun r => Chained walk epoch r.1 walk.commits) NoneAbandoned := by
  have hE := asserted_noneAbandoned.stable
  induction rest with
  | nil =>
    intro done tip replayed hdone
    rw [List.append_nil] at hdone
    exact triple_pure asserted_chained.stable fun s hs => hdone ▸ hs
  | cons commit rest ih =>
    intro done tip replayed hdone
    have hdone' : (done ++ [commit]) ++ rest = walk.commits := by simpa using hdone
    have hparents (ps : List GitOid) : Stable Lands fun s => s.repo.parents commit = some ps :=
      stable_of_landed fun _ _ h => h.parents commit ps
    refine triple_bind hE (triple_look asserted_chained hparents hE asserted_chained.keeps
      fun s ps s' _ heffect => ⟨heffect.2, heffect.2 ▸ heffect.1⟩) ?_
    rintro (_ | ⟨parent, sides⟩)
    · exact (ih _ tip replayed hdone').of_imp (asserted_chained.and (hparents [])).stable
        fun s hs => ⟨hs.1.1, hs.1.2.skip hs.2⟩
    · refine triple_bind hE (R := fun copy => Chained walk epoch copy (done ++ [commit])) ?_
        fun copy => ih _ copy (replayed + 1) hdone'
      refine triple_step (asserted_chained.and (hparents _)) (fun _ => asserted_chained) hE
        (fun s hs => hs.1.1) ?_
      rintro s copy s' ⟨⟨hs, hchain⟩, hps⟩ - ⟨commit', commits, hcommit, hadds, rfl⟩
      exact ⟨noneAbandoned_copy hs hadds, hchain.copy hps hcommit hadds⟩

/-- The guard finds HEAD where the walk started. -/
theorem triple_neverAbandonGuard (oldEpoch : GitOid) (replayed : Nat) :
    SyncTriple (Chained walk epoch tip walk.commits)
      (neverAbandonGuard walk.head oldEpoch tip replayed) (fun _ => Ready epoch tip)
      NoneAbandoned := by
  have hE := asserted_noneAbandoned.stable
  refine triple_bind hE (triple_requireHead asserted_chained hE asserted_chained.keeps
    readFree_chained) fun head => ?_
  have hsaw : Asserted fun s => Chained walk epoch tip walk.commits s ∧ SawHead (some head) s :=
    asserted_chained.and (stable_sawHead _)
  split_ifs with hne
  · exact triple_throw hsaw.stable hsaw.keeps
  · obtain rfl : head = walk.head := not_not.mp hne
    refine triple_bind hE (triple_tryQuiet hsaw fun _ _ _ h => h.2) fun contained => ?_
    split_ifs
    · exact triple_pure hsaw.stable fun s hs => ⟨hs.1.1, walk, hs.2.lastRead, hs.1.2⟩
    · exact triple_throw hsaw.stable hsaw.keeps
  · obtain rfl : head = walk.head := not_not.mp hne
    exact triple_pure hsaw.stable fun s hs => ⟨hs.1.1, walk, hs.2.lastRead, hs.1.2⟩

theorem triple_skipCheckout {P E : SyncState → Prop} (opts : RebaseRunOptions) (hP : Asserted P)
    (hE : Stable Lands E) : SyncTriple P (skipCheckout opts) (fun _ => P) E := by
  rw [skipCheckout]
  split_ifs
  · refine triple_bind hE (triple_tryQuiet hP fun _ _ _ h => h) fun dirty => ?_
    exact triple_pure hP.stable fun _ hs => hs
  · exact triple_pure hP.stable fun _ hs => hs

theorem triple_checkoutTip (opts : RebaseRunOptions) (skip : Bool) :
    SyncTriple NoneAbandoned (checkoutTip opts tip skip) (fun _ => NoneAbandoned)
      NoneAbandoned := by
  have hE := asserted_noneAbandoned.stable
  rw [checkoutTip]
  split_ifs
  · refine triple_bind hE (triple_tryQuiet asserted_noneAbandoned fun _ _ _ h => h) fun updated => ?_
    exact triple_pure hE fun _ hs => hs
  · refine triple_bind hE (triple_quiet asserted_noneAbandoned hE (fun _ hs => hs)
      fun _ _ _ h => h) fun _ => ?_
    exact triple_pure hE fun _ hs => hs
  · exact triple_pure hE fun _ hs => hs

theorem triple_replayOnto (walk : Walk) (opts : RebaseRunOptions) (oldEpoch : GitOid) :
    SyncTriple (Chained walk epoch epoch [])
      (replayOnto opts walk.head oldEpoch epoch walk.commits) (fun _ => NoneAbandoned)
      NoneAbandoned := by
  have hE := asserted_noneAbandoned.stable
  refine triple_bind hE (triple_quiet asserted_chained hE asserted_chained.keeps
    fun _ _ _ h => h.2) fun _ => ?_
  refine triple_bind hE (triple_replayCommits walk.commits [] epoch 0 rfl) ?_
  rintro ⟨parentGit, replayed⟩
  refine triple_bind hE (triple_skipCheckout opts asserted_chained hE) fun skip => ?_
  refine triple_bind hE (triple_neverAbandonGuard oldEpoch replayed) fun _ => ?_
  refine triple_bind hE (R := fun _ => NoneAbandoned) ?_ fun _ => ?_
  · refine triple_step asserted_ready (fun _ => asserted_noneAbandoned) hE asserted_ready.keeps ?_
    rintro s a s' hs hsafe ⟨h, rfl⟩
    exact hs.setHead (hsafe _ _ rfl) h
  · refine triple_bind hE (triple_checkoutTip opts skip) fun updated => ?_
    refine triple_bind hE (triple_writeEpochRef epoch) fun _ => ?_
    exact triple_pure hE fun _ hs => hs

/-- The walk from a HEAD that was read, before any commit is replayed. -/
theorem triple_walkCommits {E : SyncState → Prop} (epoch base head : GitOid) (hE : Stable Lands E)
    (hPE : ∀ s, Fresh s → E s) :
    SyncTriple (fun s => Fresh s ∧ SawHead (some head) s)
      (attempt (SyncOp.walkCommits base head))
      (fun walked s => (Fresh s ∧ SawHead (some head) s) ∧
        ChainTo s ⟨base, head, walked⟩ epoch epoch []) E := by
  have hsaw := asserted_fresh.and (stable_sawHead (some head))
  refine triple_step hsaw (fun walked => hsaw.and (stable_of_landed fun _ _ h => h.chainTo)) hE
    (fun s hs => hPE s hs.1) ?_
  rintro s walked s' ⟨hfresh, hread⟩ - ⟨⟨hmem, hwalked⟩, rfl⟩
  refine ⟨⟨hfresh, hread.lastRead, hread.attached, hread.onHead⟩, rfl, hmem, fun c hc => ?_,
    NodeStore.IsAncestor.refl epoch, ?_, by simp⟩
  · by_cases hbase : s.repo.commits.IsAncestor c base
    · exact .inl hbase
    · exact .inr ((hwalked c).mpr ⟨hc, hbase⟩)
  · intro c copy hcopy
    have hnone : s.copies = ∅ := hfresh.2
    simp [hnone] at hcopy

theorem triple_lockRebase (opts : RebaseRunOptions) :
    SyncTriple Fresh (lockRebase opts) (fun _ => Fresh) NoneAbandoned := by
  have hE := asserted_noneAbandoned.stable
  rw [lockRebase]
  split_ifs
  · refine triple_bind hE (triple_quiet asserted_fresh hE asserted_fresh.keeps fun _ _ _ h => h)
      fun acquired => ?_
    split_ifs
    · exact triple_pure asserted_fresh.stable fun _ hs => hs
    · exact triple_throw asserted_fresh.stable asserted_fresh.keeps
  · exact triple_pure asserted_fresh.stable fun _ hs => hs

theorem triple_rebaseWorkspaceRun (opts : RebaseRunOptions) (oldEpoch newEpoch : GitOid) :
    SyncTriple Fresh (rebaseWorkspaceRun opts oldEpoch newEpoch) (fun _ => NoneAbandoned)
      NoneAbandoned := by
  have hE := asserted_noneAbandoned.stable
  refine triple_bind hE (triple_lockRebase opts) fun _ => ?_
  refine triple_bind hE (triple_refuseDirty asserted_fresh hE asserted_fresh.keeps) fun _ => ?_
  refine triple_bind hE (triple_requireHead asserted_fresh hE asserted_fresh.keeps
    readFree_fresh) fun head => ?_
  refine triple_bind hE (triple_walkCommits newEpoch oldEpoch head hE
    asserted_fresh.keeps) ?_
  have hstable (walked : List GitOid) : Stable Lands fun s =>
      (Fresh s ∧ SawHead (some head) s) ∧
        ChainTo s ⟨oldEpoch, head, walked⟩ newEpoch newEpoch [] :=
    ((asserted_fresh.and (stable_sawHead _)).and
      (stable_of_landed fun _ _ h => h.chainTo)).stable
  rintro (_ | ⟨commit, rest⟩)
  · exact (triple_fastForward opts).of_imp (hstable _) fun s hs => hs.1.1
  · exact (triple_replayOnto ⟨oldEpoch, head, commit :: rest⟩ opts oldEpoch).of_imp
      (hstable _) fun s hs => ⟨hs.1.1.1, hs.2⟩

/-- When HEAD has no commits that the base does not have, the walk is replayed already. -/
theorem triple_committedAheadOfEpoch (base : GitOid) :
    SyncTriple Fresh (committedAheadOfEpoch base)
      (fun ahead s => Fresh s ∧ (ahead = 0 → Ready epoch epoch s)) Fresh := by
  have hE := asserted_fresh.stable
  have hready (ahead : Nat) : Asserted fun s => Fresh s ∧ (ahead = 0 → Ready epoch epoch s) :=
    asserted_fresh.and (stable_imp asserted_ready.stable)
  refine triple_bind hE (triple_requireResolved base asserted_fresh hE fun _ hs => hs)
    fun oid => ?_
  refine Triple.of_imp (P := Fresh) ?_ (asserted_fresh.and (stable_const _)).stable
    fun s hs => hs.1
  refine triple_bind hE (triple_requireHead asserted_fresh hE (fun _ hs => hs) readFree_fresh)
    fun head => ?_
  refine triple_bind hE (triple_walkCommits epoch oid head hE fun _ hs => hs)
    fun walked => ?_
  refine triple_pure ((asserted_fresh.and (stable_sawHead _)).and
    (stable_of_landed fun _ _ h => h.chainTo)).stable ?_
  rintro s ⟨⟨hfresh, hread⟩, hchain⟩
  refine ⟨hfresh, fun hnone => ⟨hfresh.1, ⟨oid, head, walked⟩, hread.lastRead, ?_⟩⟩
  obtain rfl := List.length_eq_zero_iff.mp hnone
  exact hchain

theorem triple_baseEpoch : SyncTriple Fresh baseEpoch (fun _ => Fresh) NoneAbandoned := by
  have hE := asserted_noneAbandoned.stable
  refine triple_bind hE (triple_quiet asserted_fresh hE asserted_fresh.keeps fun _ _ _ h => h.2) ?_
  rintro (_ | oid)
  · refine Meets.imp (triple_requireHead asserted_fresh hE asserted_fresh.keeps readFree_fresh) ?_
    rintro (e | head) s hs
    · exact hs
    · exact hs.1
  · exact triple_pure asserted_fresh.stable fun _ hs => hs

theorem triple_advance : SyncTriple Fresh advance (fun _ => NoneAbandoned) NoneAbandoned := by
  have hE := asserted_noneAbandoned.stable
  refine triple_bind hE triple_baseEpoch fun oldEpoch => ?_
  refine triple_bind hE (triple_quiet asserted_fresh hE asserted_fresh.keeps fun _ _ _ h => h.2) ?_
  rintro (_ | newEpoch)
  · exact triple_throw asserted_fresh.stable asserted_fresh.keeps
  have hrebase (Q : SyncState → Prop) (hQ : Stable Lands Q) (hfresh : ∀ s, Q s → Fresh s) :
      SyncTriple Q
        (do
          let _ ← rebaseWorkspaceRun ⟨true, true, false⟩ oldEpoch newEpoch
          pure AdvanceOutcome.rebased) (fun _ => NoneAbandoned) NoneAbandoned :=
    (triple_bind hE (triple_rebaseWorkspaceRun _ oldEpoch newEpoch) fun _ =>
      triple_pure hE fun _ hs => hs).of_imp hQ hfresh
  dsimp only
  split_ifs
  · exact triple_pure asserted_fresh.stable asserted_fresh.keeps
  have hahead (ahead : Nat) : Stable Lands fun s =>
      Fresh s ∧ (ahead = 0 → Ready newEpoch newEpoch s) :=
    (asserted_fresh.and (stable_imp asserted_ready.stable)).stable
  refine triple_bind hE (triple_asOption hahead asserted_fresh.stable
    (triple_committedAheadOfEpoch oldEpoch)) ?_
  rintro (_ | _ | ahead)
  · exact hrebase _ asserted_fresh.stable fun _ hs => hs
  · refine Triple.of_imp (P := Ready newEpoch newEpoch) ?_ (hahead 0) fun s hs => hs.2 rfl
    refine triple_bind hE (triple_quiet asserted_ready hE asserted_ready.keeps
      fun _ _ _ h => h) fun _ => ?_
    refine triple_bind hE (triple_checkoutEpoch asserted_ready fun s hs hsafe h =>
      hs.setHead hsafe h) fun _ => ?_
    refine triple_bind hE (triple_writeEpochRef newEpoch) fun _ => ?_
    refine triple_bind hE (triple_quiet asserted_noneAbandoned hE (fun _ hs => hs)
      fun _ _ _ h => h) fun _ => ?_
    exact triple_pure hE fun _ hs => hs
  · exact hrebase _ (hahead _) fun s hs => hs.1

end Replay

/-! ### All runs -/

section Runs

/-- The operations that move the HEAD of a workspace. -/
inductive SyncCommand
  | rebase (opts : RebaseRunOptions) (oldEpoch newEpoch : GitOid)
  | sync (epoch : GitOid) (expectedHead : Option GitOid)
  | advance
  deriving DecidableEq, Repr

def SyncCommand.program : SyncCommand → SyncProg Unit
  | rebase opts oldEpoch newEpoch => do
    let _ ← rebaseWorkspaceRun opts oldEpoch newEpoch
    pure ()
  | sync epoch expectedHead => do
    let _ ← syncWorktreeToEpoch epoch expectedHead
    pure ()
  | advance => do
    let _ ← Maw.Sync.advance
    pure ()

theorem triple_program (command : SyncCommand) :
    SyncTriple Fresh command.program (fun _ => NoneAbandoned) NoneAbandoned := by
  have hE := asserted_noneAbandoned.stable
  cases command with
  | rebase opts oldEpoch newEpoch =>
    exact triple_bind hE (triple_rebaseWorkspaceRun opts oldEpoch newEpoch) fun _ =>
      triple_pure hE fun _ hs => hs
  | sync epoch expectedHead =>
    exact triple_bind hE (triple_syncWorktreeToEpoch expectedHead) fun _ =>
      triple_pure hE fun _ hs => hs
  | advance => exact triple_bind hE triple_advance fun _ => triple_pure hE fun _ hs => hs

/-- In a run in which HEAD is moved only where this is safe, no commit that was HEAD is ever
abandoned, whatever commits are made in the workspace between the steps. -/
theorem noneAbandoned_of_run (command : SyncCommand) {repo : WsRepo} {seen : Set GitOid}
    {q : Prog SyncOp (fun op => Except SyncError op.Ret) (Except SyncError Unit)} {s : SyncState}
    (hseen : ∀ c ∈ seen, repo.OnHead c ∨ repo.OnBranch c)
    (hrun : Prog.RunsAmid safeExec Lands command.program.run (.start repo seen) q s) :
    NoneAbandoned s := by
  have hstart : Fresh (.start repo seen) := ⟨fun c hc => .inl (hseen c hc), rfl⟩
  exact hrun.invariant (fun _ _ h => (landed_of_lands h).noneAbandoned) (triple_program command)
    hstart hstart.1

end Runs

section Samples

/-- A workspace with a detached HEAD, without branches and without a recorded base. -/
private def sampleWs (head epoch : Nat)
    (h : sampleBlob head ∈ sampleCommits.nodes := by decide) : WsRepo where
  commits := sampleCommits
  head := .detached (sampleBlob head)
  branches := ∅
  wsEpoch := none
  epochCurrent := some (sampleBlob epoch)
  head_mem := by
    rintro _ ⟨⟩
    exact h

private theorem isAncestor_one_two : sampleCommits.IsAncestor (sampleBlob 1) (sampleBlob 2) :=
  NodeStore.ParentOf.isAncestor ⟨sampleCommit 10 [sampleBlob 1], by decide, by decide⟩

private theorem not_isAncestor_two_one :
    ¬ sampleCommits.IsAncestor (sampleBlob 2) (sampleBlob 1) := by
  intro h
  have heq := h.antisymm isAncestor_one_two
  exact absurd heq (by decide)

/-- A run goes on after a step. -/
private theorem exists_step {C : SyncState → Prop} {α : Type} {op : SyncOp}
    {exec : (op : SyncOp) → SyncState → Except SyncError op.Ret → SyncState → Prop}
    {next : Except SyncError op.Ret → Prog SyncOp (fun op => Except SyncError op.Ret) α}
    {s s' : SyncState} (r : Except SyncError op.Ret) (hexec : exec op s r s')
    (hrun : ∃ q t, Prog.RunsAmid exec Lands (next r) s' q t ∧ C t) :
    ∃ q t, Prog.RunsAmid exec Lands (.call op next) s q t ∧ C t := by
  obtain ⟨q, t, hrun, ht⟩ := hrun
  exact ⟨q, t, .step hexec hrun, ht⟩

private theorem resolve_sample {oid : GitOid} {s : SyncState} (h : oid ∈ s.repo.commits.nodes) :
    (SyncOp.resolve oid).effect s (some oid) s := by
  refine ⟨fun x => ⟨?_, ?_⟩, rfl⟩
  · rintro ⟨⟩
    exact ⟨rfl, h⟩
  · rintro ⟨rfl, -⟩
    rfl

private theorem not_attached {repo : WsRepo} {oid : GitOid} (h : repo.head = .detached oid) :
    ¬ repo.Attached := by
  simp [WsRepo.Attached, h]

/-- HEAD is moved to the commit on top of it. -/
private theorem sync_runs : ∃ q t, Prog.RunsAmid safeExec Lands
    (SyncCommand.sync (sampleBlob 2) none).program.run
      (.start (sampleWs 1 2) {sampleBlob 1}) q t ∧ t.repo.headCommit = some (sampleBlob 2) := by
  have hmem : sampleBlob 2 ∈ sampleCommits.nodes := by decide
  refine exists_step (.ok false) ⟨rfl, by simp⟩ ?_
  refine exists_step (.ok (some (sampleBlob 1))) ⟨⟨rfl, rfl⟩, by simp⟩ ?_
  refine exists_step (.ok true) ⟨⟨iff_of_true rfl (not_attached rfl), rfl⟩, by simp⟩ ?_
  refine exists_step (.ok (some (sampleBlob 2))) ⟨resolve_sample hmem, by simp⟩ ?_
  refine exists_step (.ok true) ⟨⟨iff_of_true rfl isAncestor_one_two, rfl⟩, by simp⟩ ?_
  refine exists_step (.ok (some (sampleBlob 2))) ⟨resolve_sample hmem, by simp⟩ ?_
  refine exists_step (.ok ()) ⟨rfl, by simp⟩ ?_
  refine exists_step (.ok ()) ⟨⟨hmem, rfl⟩, ?_⟩ ⟨_, _, .refl _ _, rfl⟩
  rintro _ _ ⟨⟩
  exact .inr ⟨rfl, .inl ⟨sampleBlob 1, rfl, isAncestor_one_two⟩⟩

theorem noneAbandoned_of_sync : ∃ q t, Prog.RunsAmid safeExec Lands
    (SyncCommand.sync (sampleBlob 2) none).program.run
      (.start (sampleWs 1 2) {sampleBlob 1}) q t ∧ t.repo.headCommit = some (sampleBlob 2) ∧
    NoneAbandoned t := by
  have hseen : ∀ c ∈ ({sampleBlob 1} : Set GitOid),
      (sampleWs 1 2).OnHead c ∨ (sampleWs 1 2).OnBranch c := by
    rintro c rfl
    exact .inl ⟨sampleBlob 1, rfl, NodeStore.IsAncestor.refl _⟩
  obtain ⟨q, t, hrun, hhead⟩ := sync_runs
  exact ⟨q, t, hrun, hhead, noneAbandoned_of_run _ hseen hrun⟩

/-- Without a recorded base, HEAD is its own base: a commit on top of the epoch is abandoned when
the workspace is advanced to the epoch. -/
theorem advance_abandons_commit :
    (∀ c ∈ ({sampleBlob 2} : Set GitOid), (sampleWs 2 1).OnHead c ∨ (sampleWs 2 1).OnBranch c) ∧
      ∃ q t, Prog.RunsAmid SyncOp.exec Lands SyncCommand.advance.program.run
        (.start (sampleWs 2 1) {sampleBlob 2}) q t ∧ ¬ NoneAbandoned t := by
  have hone : sampleBlob 1 ∈ sampleCommits.nodes := by decide
  have htwo : sampleBlob 2 ∈ sampleCommits.nodes := by decide
  constructor
  · rintro c rfl
    exact .inl ⟨sampleBlob 2, rfl, NodeStore.IsAncestor.refl _⟩
  refine exists_step (.ok none) ⟨rfl, rfl⟩ ?_
  refine exists_step (.ok (some (sampleBlob 2))) ⟨rfl, rfl⟩ ?_
  refine exists_step (.ok (some (sampleBlob 1))) ⟨rfl, rfl⟩ ?_
  refine exists_step (.ok (some (sampleBlob 2))) (resolve_sample htwo) ?_
  refine exists_step (.ok (some (sampleBlob 2))) ⟨rfl, rfl⟩ ?_
  refine exists_step (.ok []) ⟨⟨htwo, by simp⟩, rfl⟩ ?_
  refine exists_step (.ok ()) rfl ?_
  refine exists_step (.ok (some (sampleBlob 1))) (resolve_sample hone) ?_
  refine exists_step (.ok ()) rfl ?_
  refine exists_step (.ok ()) ⟨hone, rfl⟩ ⟨_, _, .refl _ _, fun h => ?_⟩
  rcases h (sampleBlob 2) (.inr rfl) with (⟨head, ⟨⟩, hanc⟩ | ⟨name, tip, htip, -⟩) | ⟨copy, hcopy, -⟩
  · exact not_isAncestor_two_one hanc
  · have hnone : (∅ : FiniteMap String GitOid).lookup name = some tip := htip
    simp at hnone
  · have hnone : (sampleBlob 2, copy) ∈ (∅ : Set (GitOid × GitOid)) := hcopy
    simp at hnone

end Samples

end Maw.Sync
