import Maw.Library.MergeFold
import Maw.Merge.ShiftedKeeps

/-!
# The fold that is repeated for its atoms

When the merges of a path stop at a conflict, they are repeated to find the atoms of the conflict
and the workspaces in it. The repetition merges without the second try with moved blocks, so that it
may stop earlier.

## Main definitions

* `ResolutionStops` — the entry at which the merges of a path stop.
* `HasBlock` — the lines of a text have the markers of a conflict in their order.
* `NamesParticipants` — the atoms name the entry and those in front of it that are in conflict with
  it.

## Main results

* `parseDiff3Atoms_ne_nil_iff` — a text has atoms exactly if it has a block of markers.
* `recoverDiff3Atoms_names_iff` — when the atoms name the workspaces in the conflict.
-/

open ExceptRun MergeFold

namespace Maw

/-! ### Texts with a block of markers -/

section Block

variable {line : List Char} {lines rest : List (List Char)}

def opensBlock (line : List Char) : Prop := "<<<<<<<".toList.isPrefixOf line = true

def marksBase (line : List Char) : Prop := "|||||||".toList.isPrefixOf line = true

def marksSplit (line : List Char) : Prop := line = "=======".toList

def closesBlock (line : List Char) : Prop := ">>>>>>>".toList.isPrefixOf line = true

/-- Behind lines that open no block there is such a line, and behind it lines as required. -/
def Finds (mark : List Char → Prop) (behind : List (List Char) → Prop)
    (lines : List (List Char)) : Prop :=
  ∃ front line rest, lines = front ++ line :: rest ∧ (∀ l ∈ front, ¬ opensBlock l) ∧ mark line ∧
    ¬ opensBlock line ∧ behind rest

def Closes : List (List Char) → Prop := Finds closesBlock fun _ => True

def Splits : List (List Char) → Prop := Finds marksSplit Closes

def Bases : List (List Char) → Prop := Finds marksBase Splits

/-- The four markers of a block in their order, with no line in between that opens a block. -/
def HasBlock (lines : List (List Char)) : Prop :=
  ∃ front line rest, lines = front ++ line :: rest ∧ opensBlock line ∧ Bases rest

variable {mark : List Char → Prop} {behind : List (List Char) → Prop}

theorem finds_cons : Finds mark behind (line :: rest) ↔
    ¬ opensBlock line ∧ (mark line ∧ behind rest ∨ Finds mark behind rest) := by
  constructor
  · rintro ⟨front, l, back, heq, hfront, hmark, hopen, hback⟩
    rcases front with _ | ⟨f, front⟩
    · obtain ⟨rfl, rfl⟩ := List.cons.inj heq
      exact ⟨hopen, .inl ⟨hmark, hback⟩⟩
    · obtain ⟨rfl, rfl⟩ := List.cons.inj heq
      rw [List.forall_mem_cons] at hfront
      exact ⟨hfront.1, .inr ⟨front, l, back, rfl, hfront.2, hmark, hopen, hback⟩⟩
  · rintro ⟨hopen, ⟨hmark, hback⟩ | ⟨front, l, back, rfl, hfront, hmark, hopen', hback⟩⟩
    · exact ⟨[], line, rest, rfl, by simp, hmark, hopen, hback⟩
    · exact ⟨line :: front, l, back, rfl, List.forall_mem_cons.mpr ⟨hopen, hfront⟩, hmark, hopen',
        hback⟩

theorem not_finds_nil : ¬ Finds mark behind [] := by
  rintro ⟨front, line, rest, heq, -⟩
  cases front <;> cases heq

theorem hasBlock_cons : HasBlock (line :: rest) ↔ opensBlock line ∧ Bases rest ∨ HasBlock rest := by
  constructor
  · rintro ⟨front, l, back, heq, hopen, hback⟩
    rcases front with _ | ⟨f, front⟩
    · obtain ⟨rfl, rfl⟩ := List.cons.inj heq
      exact .inl ⟨hopen, hback⟩
    · obtain ⟨rfl, rfl⟩ := List.cons.inj heq
      exact .inr ⟨front, l, back, rfl, hopen, hback⟩
  · rintro (⟨hopen, hback⟩ | ⟨front, l, back, rfl, hopen, hback⟩)
    · exact ⟨[], line, rest, rfl, hopen, hback⟩
    · exact ⟨line :: front, l, back, rfl, hopen, hback⟩

/-- What stands in front of the lines that are looked for can be passed over. -/
theorem Finds.pass (hback : ∀ l ls, ¬ opensBlock l → behind ls → behind (l :: ls))
    (h : Finds mark behind lines) : behind lines := by
  obtain ⟨front, line, rest, rfl, hfront, -, hopen, hrest⟩ := h
  induction front with
  | nil => exact hback line rest hopen hrest
  | cons f front ih =>
    rw [List.forall_mem_cons] at hfront
    exact hback f _ hfront.1 (ih hfront.2)

theorem Finds.cons (hopen : ¬ opensBlock line) (h : Finds mark behind rest) :
    Finds mark behind (line :: rest) :=
  finds_cons.mpr ⟨hopen, .inr h⟩

theorem splits_of_bases (h : Finds marksBase Splits lines) : Splits lines :=
  Finds.pass (fun _ _ => Finds.cons) h

theorem closes_of_splits (h : Finds marksSplit Closes lines) : Closes lines :=
  Finds.pass (fun _ _ => Finds.cons) h

end Block

/-! ### Texts with atoms -/

section Parser

variable (wsOurs wsTheirs : String)

namespace AtomParser

/-- What is looked for next. -/
def Awaits (state : Diff3ParseState) (lines : List (List Char)) : Prop :=
  match state with
  | .context => HasBlock lines
  | .ours => Bases lines ∨ HasBlock lines
  | .base => Splits lines ∨ HasBlock lines
  | .theirs => Closes lines ∨ HasBlock lines

/-- One line of the parser: it finds what it awaits, or goes on. -/
theorem awaits_cons (s : AtomParser) (line : List Char) (rest : List (List Char)) :
    s.atoms ≠ [] ∨ Awaits s.state (line :: rest) ↔
      (s.step wsOurs wsTheirs line).atoms ≠ [] ∨
        Awaits (s.step wsOurs wsTheirs line).state rest := by
  obtain ⟨state, b, start, ours, base, theirs, atoms⟩ := s
  rw [step]
  dsimp only
  by_cases hopen : "<<<<<<<".toList.isPrefixOf line = true
  · have hnone (mark behind) : ¬ Finds mark behind (line :: rest) := fun h =>
      (finds_cons.mp h).1 hopen
    have hblock : HasBlock (line :: rest) ↔ Bases rest ∨ HasBlock rest := by
      rw [hasBlock_cons, opensBlock, and_iff_right hopen]
    rw [if_pos hopen]
    cases state <;> simp [Awaits, Bases, Splits, Closes, hnone, hblock]
  · have hblock : HasBlock (line :: rest) ↔ HasBlock rest := by
      rw [hasBlock_cons, or_iff_right fun h => hopen h.1]
    have hfinds (mark behind) : Finds mark behind (line :: rest) ↔
        mark line ∧ behind rest ∨ Finds mark behind rest := by
      rw [finds_cons, opensBlock, and_iff_right hopen]
    rw [if_neg hopen]
    cases state with simp only [reduceCtorEq, decide_false, decide_true, Bool.and_false,
      Bool.and_true, Bool.false_eq_true, if_false, decide_eq_true_eq]
    | context => exact or_congr_right hblock
    | ours =>
      by_cases hmark : "|||||||".toList.isPrefixOf line = true
      · have hbases : Bases (line :: rest) ↔ Splits rest := by
          rw [Bases, hfinds, marksBase, and_iff_right hmark, or_iff_left_of_imp splits_of_bases]
        rw [if_pos hmark]
        exact or_congr_right (or_congr hbases hblock)
      · have hbases : Bases (line :: rest) ↔ Bases rest := by
          rw [Bases, hfinds, or_iff_right fun h => hmark h.1]
        rw [if_neg hmark]
        exact or_congr_right (or_congr hbases hblock)
    | base =>
      by_cases hmark : line = "=======".toList
      · have hsplits : Splits (line :: rest) ↔ Closes rest := by
          rw [Splits, hfinds, marksSplit, and_iff_right hmark, or_iff_left_of_imp closes_of_splits]
        rw [if_pos hmark]
        exact or_congr_right (or_congr hsplits hblock)
      · have hsplits : Splits (line :: rest) ↔ Splits rest := by
          rw [Splits, hfinds, or_iff_right fun h => hmark h.1]
        rw [if_neg hmark]
        exact or_congr_right (or_congr hsplits hblock)
    | theirs =>
      by_cases hmark : ">>>>>>>".toList.isPrefixOf line = true
      · have hcloses : Closes (line :: rest) := (hfinds _ _).mpr (.inl ⟨hmark, trivial⟩)
        rw [if_pos hmark]
        exact iff_of_true (.inr (.inl hcloses)) (.inl (by simp))
      · have hcloses : Closes (line :: rest) ↔ Closes rest := by
          rw [Closes, hfinds, or_iff_right fun h => hmark h.1]
        rw [if_neg hmark]
        exact or_congr_right (or_congr hcloses hblock)

theorem atoms_ne_nil_iff (lines : List (List Char)) (s : AtomParser) :
    (lines.foldl (step wsOurs wsTheirs) s).atoms ≠ [] ↔ s.atoms ≠ [] ∨ Awaits s.state lines := by
  induction lines generalizing s with
  | nil =>
    have hblock : ¬ HasBlock [] := by
      rintro ⟨front, line, rest, heq, -⟩
      cases front <;> cases heq
    cases h : s.state <;> simp [Awaits, Bases, Splits, Closes, not_finds_nil, hblock]
  | cons line lines ih => rw [List.foldl_cons, ih, awaits_cons]

end AtomParser

/-- A text has atoms exactly if it has a block of markers. -/
theorem parseDiff3Atoms_ne_nil_iff (markerOutput : Bytes) :
    parseDiff3Atoms markerOutput wsOurs wsTheirs ≠ [] ↔
      HasBlock (textLines (fromUtf8Lossy markerOutput)) := by
  rw [parseDiff3Atoms, AtomParser.atoms_ne_nil_iff]
  simp [AtomParser.Awaits]

/-- The edits of an atom are those of the two sides. -/
theorem workspaces_of_mem_parseDiff3Atoms {wsOurs wsTheirs : String} {markerOutput : Bytes}
    {a : OverlapAtom} (h : a ∈ parseDiff3Atoms markerOutput wsOurs wsTheirs) :
    a.edits.map (·.workspace) = [wsOurs, wsTheirs] := by
  have hstep (s : AtomParser) (line : List Char)
      (hs : ∀ a ∈ s.atoms, a.edits.map (·.workspace) = [wsOurs, wsTheirs]) :
      ∀ a ∈ (s.step wsOurs wsTheirs line).atoms, a.edits.map (·.workspace) = [wsOurs, wsTheirs] := by
    rw [AtomParser.step]
    split_ifs
    · exact hs
    · exact hs
    · exact hs
    · intro a ha
      rcases List.mem_append.mp ha with ha | ha
      · exact hs a ha
      · rw [List.mem_singleton.mp ha]
        rfl
    · rw [AtomParser.collect]
      split <;> exact hs
  have hrun (lines : List (List Char)) (s : AtomParser)
      (hs : ∀ a ∈ s.atoms, a.edits.map (·.workspace) = [wsOurs, wsTheirs]) :
      ∀ a ∈ (lines.foldl (AtomParser.step wsOurs wsTheirs) s).atoms,
        a.edits.map (·.workspace) = [wsOurs, wsTheirs] := by
    induction lines generalizing s with
    | nil => exact hs
    | cons line lines ih => exact ih _ (hstep s line hs)
  exact hrun _ {} (by simp) a h

end Parser

/-! ### Where the merges stop -/

section Stops

/-- The merge of the resolution leads to a text. -/
def Retried (tools : MergeTools) (base ours theirs merged : Bytes) : Prop :=
  diff3WithRetry tools base ours theirs = .ok (.clean merged)

/-- The merge alone leads to a text, without a second try. -/
def MergesAlone (tools : MergeTools) (base ours theirs merged : Bytes) : Prop :=
  tools.diff3MergeBytes base ours theirs = .ok (.clean merged)

/-- The texts of changes merge one after another. -/
def MergesEntries (merge : Bytes → Bytes → Bytes → Prop) (entries : List PathEntry)
    (merged : Bytes) : Prop :=
  ∃ first rest, entries.map (·.content) = some first :: rest.map some ∧
    MergesTo merge first rest merged

/-- The resolution of a path stops at the change `e`: those in front of it merge to a text with
which its own text is in conflict. -/
structure ResolutionStops (tools : MergeTools) (base : Bytes) (entries front : List PathEntry)
    (e : PathEntry) (text merged : Bytes) : Prop where
  entries : ∃ back, entries = front ++ e :: back
  merges : MergesEntries (Retried tools base) front merged
  content : e.content = some text
  ne : merged ≠ text
  conflict : diff3WithRetry tools base merged text = .ok .conflict

variable {tools : MergeTools} {base : Bytes}

/-- A fold that ends in a conflict stops at some text. -/
theorem foldVariants_conflict {C ε : Type} [DecidableEq C]
    {diff3 : C → C → C → Except ε (Diff3Result C)} {base : C} {rest : List C}
    {reason : ConflictReason} : ∀ {merged : C},
    foldVariants diff3 base merged rest = .ok (.conflict reason) →
      ∃ front next back mid, rest = front ++ next :: back ∧
        MergesTo (fun ours theirs m => diff3 base ours theirs = .ok (.clean m)) merged front mid ∧
        mid ≠ next ∧ diff3 base mid next = .ok .conflict := by
  induction rest with
  | nil =>
    intro merged h
    cases h
  | cons next rest ih =>
    intro merged h
    rw [foldVariants] at h
    by_cases heq : merged = next
    · rw [if_pos heq] at h
      subst heq
      obtain ⟨front, next, back, mid, rfl, hmerges, hstop⟩ := ih h
      exact ⟨merged :: front, next, back, mid, rfl, .same merged hmerges, hstop⟩
    · rw [if_neg heq, bind_eq_ok] at h
      obtain ⟨r, hr, h⟩ := h
      cases r with
      | clean out =>
        obtain ⟨front, next', back, mid, rfl, hmerges, hstop⟩ := ih h
        exact ⟨next :: front, next', back, mid, rfl, .step heq hr hmerges, hstop⟩
      | conflict => exact ⟨[], next, rest, merged, rfl, .nil merged, heq, hr⟩

/-- A conflict of a second try is one of the merge alone. -/
theorem exists_markers {ours theirs : Bytes}
    (h : diff3WithRetry tools base ours theirs = .ok .conflict) :
    ∃ markers, tools.diff3MergeBytes base ours theirs = .ok (.conflict markers) := by
  rw [diff3WithRetry, bind_eq_ok] at h
  obtain ⟨outcome, houtcome, h⟩ := h
  cases outcome with
  | clean out => cases h
  | conflict markers => exact ⟨markers, houtcome⟩

/-- What the resolution merges, the merge alone merges as well, or it stops at a conflict. -/
theorem alone_or_stops {merged mid : Bytes} {texts : List Bytes}
    (h : MergesTo (Retried tools base) merged texts mid) :
    MergesTo (MergesAlone tools base) merged texts mid ∨
      ∃ front text back out markers, texts = front ++ text :: back ∧
        MergesTo (MergesAlone tools base) merged front out ∧ out ≠ text ∧
        tools.diff3MergeBytes base out text = .ok (.conflict markers) := by
  induction h with
  | nil merged => exact .inl (.nil merged)
  | same merged h ih =>
    rcases ih with ih | ⟨front, text, back, out, markers, rfl, hmerges, hstop⟩
    · exact .inl (.same merged ih)
    · exact .inr ⟨merged :: front, text, back, out, markers, rfl, .same merged hmerges, hstop⟩
  | @step merged next mid rest out hne hmerge h ih =>
    rw [Retried, diff3WithRetry, bind_eq_ok] at hmerge
    obtain ⟨outcome, houtcome, hmerge⟩ := hmerge
    cases outcome with
    | conflict markers =>
      exact .inr ⟨[], next, rest, merged, markers, rfl, .nil merged, hne, houtcome⟩
    | clean mid' =>
      cases hmerge
      rcases ih with ih | ⟨front, text, back, out, markers, rfl, hmerges, hstop⟩
      · exact .inl (.step hne houtcome ih)
      · exact .inr ⟨next :: front, text, back, out, markers, rfl, .step hne houtcome hmerges,
          hstop⟩

end Stops

/-! ### The changes of a conflict -/

section Entries

variable {tools : MergeTools} {base : Option Bytes} {entries : List PathEntry}

theorem allContentEqual_of_forall {c : Bytes} {texts : List Bytes} (h : ∀ t ∈ texts, t = c) :
    allContentEqual texts = true := by
  cases texts with
  | nil => rfl
  | cons t texts =>
    rw [allContentEqual_iff]
    intro v hv
    rw [h v (List.mem_cons_of_mem _ hv), h t List.mem_cons_self]

/-- Changes whose contents differ are merged as they are. -/
theorem effectiveContents_of_differ
    (h : ¬ allContentEqual ((effectiveContents entries).filterMap (·.2)) = true) :
    effectiveContents entries = entries.map fun e => (e.kind, e.content) := by
  rw [effectiveContents] at h ⊢
  split at h
  · next first second rest hcontents =>
    split_ifs at h ⊢ with hblobs
    · refine absurd ?_ h
      have hall : ∀ c ∈ (entries.map fun e => (e.kind, e.content.map fun _ => first)).filterMap (·.2),
          c = first := by
        intro c hc
        obtain ⟨⟨k, o⟩, ho, rfl⟩ := List.mem_filterMap.mp hc
        obtain ⟨e, -, heq⟩ := List.mem_map.mp ho
        obtain ⟨-, heq⟩ := Prod.mk.inj heq
        obtain ⟨_, -, rfl⟩ := Option.map_eq_some_iff.mp heq
        rfl
      exact allContentEqual_of_forall hall
    · rfl
  · rfl

/-- A conflict of merges is one of contents that are all there, with a base. -/
theorem merges_of_diff3Conflict {diff3 : Bytes → Bytes → Bytes → Except ResolveError
    (Diff3Result Bytes)}
    (h : resolveEntries (effectiveContents entries) base diff3 = .ok (.conflict .diff3Conflict)) :
    ∃ b first rest, base = some b ∧ entries.map (·.content) = some first :: rest.map some ∧
      foldVariants diff3 b first rest = .ok (.conflict .diff3Conflict) := by
  have hclass : classifySharedPath ((effectiveContents entries).map (·.1))
      ((effectiveContents entries).all fun e => e.1 = .deleted || e.2.isSome)
      (allContentEqual ((effectiveContents entries).filterMap (·.2))) base.isSome = .needsDiff3 := by
    rw [resolveEntries] at h
    generalize hk : classifySharedPath _ _ _ _ = k at h ⊢
    cases k with
    | needsDiff3 => rfl
    | resolvedIdentical =>
      rcases hv : (effectiveContents entries).filterMap (·.2) with _ | ⟨t, texts⟩ <;>
        rw [hv] at h <;> cases h
    | _ => cases h
  rw [resolveEntries, hclass] at h
  rw [classifySharedPath] at hclass
  split_ifs at hclass with hdeleted hdelete hcontent hequal hbase hadded
  have heff := effectiveContents_of_differ hequal
  obtain ⟨b, rfl⟩ : ∃ b, base = some b := Option.ne_none_iff_exists'.mp (by simpa using hbase)
  have hsome : ∀ e ∈ entries, e.content.isSome := by
    intro e he
    have hmem : (e.kind, e.content) ∈ effectiveContents entries := by
      rw [heff]
      exact List.mem_map.mpr ⟨e, he, rfl⟩
    have hkind : e.kind ≠ .deleted := by
      intro hk
      exact hdelete (List.any_eq_true.mpr ⟨e.kind, List.mem_map.mpr ⟨_, hmem, rfl⟩, by simp [hk]⟩)
    have hall : (effectiveContents entries).all (fun e => e.1 = .deleted || e.2.isSome) = true := by
      rwa [Bool.not_eq_true', Bool.not_eq_false] at hcontent
    simpa [hkind] using List.all_eq_true.mp hall _ hmem
  have htexts : (effectiveContents entries).filterMap (·.2) = entries.filterMap (·.content) := by
    rw [heff, List.filterMap_map]
    rfl
  have hmap : entries.map (·.content) = (entries.filterMap (·.content)).map some := by
    clear h hequal hdeleted hdelete hcontent heff htexts
    induction entries with
    | nil => rfl
    | cons e entries ih =>
      obtain ⟨c, hc⟩ := Option.isSome_iff_exists.mp (hsome e List.mem_cons_self)
      rw [List.map_cons, List.filterMap_cons_some hc, List.map_cons, hc,
        ih fun e' he' => hsome e' (List.mem_cons_of_mem _ he')]
  rw [htexts] at h
  rcases hcontents : entries.filterMap (·.content) with _ | ⟨first, rest⟩
  · rw [hcontents] at h
    cases h
  · rw [hcontents] at h hmap
    exact ⟨b, first, rest, rfl, hmap, h⟩

/-- The workspaces of changes with their texts. -/
def memberPairs (entries : List PathEntry) : List (WorkspaceId × Bytes) :=
  entries.filterMap fun e => e.content.map fun c => (e.workspaceId, c)

theorem memberPairs_cons {e : PathEntry} {c : Bytes} (h : e.content = some c) :
    memberPairs (e :: entries) = (e.workspaceId, c) :: memberPairs entries := by
  have hpair : e.content.map (fun c => (e.workspaceId, c)) = some (e.workspaceId, c) := by
    rw [h, Option.map_some]
  exact List.filterMap_cons_some (f := fun e : PathEntry =>
    e.content.map fun c => (e.workspaceId, c)) hpair

theorem zip_eq_memberPairs {texts : List Bytes}
    (h : entries.map (·.content) = texts.map some) :
    (entries.map (·.workspaceId)).zip texts = memberPairs entries := by
  induction entries generalizing texts with
  | nil => rfl
  | cons e entries ih =>
    rcases texts with _ | ⟨t, texts⟩
    · cases h
    · obtain ⟨he, htail⟩ := List.cons.inj h
      rw [List.map_cons, List.zip_cons_cons, ih htail, memberPairs_cons he]

theorem memberPairs_snd {texts : List Bytes} (h : entries.map (·.content) = texts.map some) :
    (memberPairs entries).map Prod.snd = texts := by
  rw [← zip_eq_memberPairs h, List.map_snd_zip]
  have hlen := congrArg List.length h
  rw [List.length_map, List.length_map] at hlen
  rw [List.length_map]
  omega

theorem memberPairs_fst {texts : List Bytes} (h : entries.map (·.content) = texts.map some) :
    (memberPairs entries).map Prod.fst = entries.map (·.workspaceId) := by
  rw [← zip_eq_memberPairs h, List.map_fst_zip]
  have hlen := congrArg List.length h
  rw [List.length_map, List.length_map] at hlen
  rw [List.length_map]
  omega

end Entries

/-! ### What is named -/

section Named

variable {tools : DetailTools} {base : Bytes} {entries front : List PathEntry} {e : PathEntry}
  {text merged : Bytes}

/-- The text of a change is in conflict with another text. -/
def Clashes (tools : MergeTools) (base text : Bytes) (member : WorkspaceId × Bytes) : Prop :=
  ∀ out, tools.diff3MergeBytes base member.2 text ≠ .ok (.clean out)

noncomputable instance (tools : MergeTools) (base text : Bytes) :
    DecidablePred (Clashes tools base text) :=
  Classical.decPred _

/-- The workspaces of one side: those whose texts are in conflict with the other side, and all if
there is none. -/
def IsSide (tools : MergeTools) (base text : Bytes) (all : List (WorkspaceId × Bytes))
    (members : List WorkspaceId) : Prop :=
  (∃ m ∈ all, Clashes tools base text m) ∧
      members = (all.filter fun m => Clashes tools base text m).map Prod.fst ∨
    (∀ m ∈ all, ¬ Clashes tools base text m) ∧ members = all.map Prod.fst

/-- The atoms name the change `e` and the changes in front of it that are in conflict with it. -/
def NamesParticipants (tools : MergeTools) (base : Bytes) (front : List PathEntry) (e : PathEntry)
    (text : Bytes) (atoms : List OverlapAtom) (participants : List WorkspaceId) : Prop :=
  atoms ≠ [] ∧ ∃ members, IsSide tools base text (memberPairs front) members ∧
    participants = members ++ [e.workspaceId] ∧
    ∀ a ∈ atoms, a.edits.map (·.workspace) = [sideLabel members, e.workspaceId.name]

theorem isSide_probeFoldedParticipants (tools : MergeTools) (base text : Bytes)
    (all : List (WorkspaceId × Bytes)) :
    IsSide tools base text all (probeFoldedParticipants tools base all text) := by
  obtain ⟨clashes, hprobe, hiff⟩ : ∃ clashes : WorkspaceId × Bytes → Bool,
      probeFoldedParticipants tools base all text =
        (if (all.filter clashes).isEmpty then all.map (·.1) else (all.filter clashes).map (·.1)) ∧
      ∀ m, clashes m = true ↔ Clashes tools base text m := by
    refine ⟨_, rfl, fun m => ?_⟩
    rw [Clashes]
    rcases tools.diff3MergeBytes base m.2 text with err | out | markers <;> simp
  rw [hprobe]
  by_cases hempty : (all.filter clashes).isEmpty = true
  · rw [if_pos hempty]
    refine .inr ⟨fun m hm => ?_, rfl⟩
    rw [← hiff]
    exact List.filter_eq_nil_iff.mp (List.isEmpty_iff.mp hempty) m hm
  · rw [if_neg hempty]
    obtain ⟨m, hm⟩ := List.exists_mem_of_ne_nil _ (List.isEmpty_iff.not.mp hempty)
    obtain ⟨hmem, hclash⟩ := List.mem_filter.mp hm
    refine .inl ⟨⟨m, hmem, (hiff m).mp hclash⟩, congrArg (List.map Prod.fst) ?_⟩
    refine List.filter_congr fun m _ => ?_
    rw [Bool.eq_iff_iff, hiff, decide_eq_true_iff]

/-- The repeated merges pass over changes that merge alone. -/
theorem replayFoldAtoms_append {all : List WorkspaceId} {pairs rest : List (WorkspaceId × Bytes)}
    {mid : Bytes} : ∀ {merged : Bytes} {members : List (WorkspaceId × Bytes)},
    MergesTo (MergesAlone tools.toMergeTools base) merged (pairs.map Prod.snd) mid →
      replayFoldAtoms tools base all merged members (pairs ++ rest) =
        replayFoldAtoms tools base all mid (members ++ pairs) rest := by
  induction pairs with
  | nil =>
    rintro merged members ⟨⟩
    rw [List.nil_append, List.append_nil]
  | cons pair pairs ih =>
    obtain ⟨w, next⟩ := pair
    intro merged members h
    rw [List.map_cons] at h
    have hmembers : members ++ (w, next) :: pairs = members ++ [(w, next)] ++ pairs := by simp
    rw [List.cons_append, replayFoldAtoms, hmembers]
    by_cases heq : merged = next
    · subst heq
      rw [if_pos rfl]
      cases h with
      | same _ h => exact ih h
      | step hne _ _ => exact absurd rfl hne
    · rw [if_neg heq]
      cases h with
      | same _ _ => exact absurd rfl heq
      | step _ hmerge h =>
        rw [MergesAlone] at hmerge
        rw [hmerge]
        exact ih h

/-- They stop at the first change that does not. -/
theorem replayFoldAtoms_stop {all : List WorkspaceId} {members rest : List (WorkspaceId × Bytes)}
    {w : WorkspaceId} {markers : Bytes} (hne : merged ≠ text)
    (h : tools.diff3MergeBytes base merged text = .ok (.conflict markers)) :
    replayFoldAtoms tools base all merged members ((w, text) :: rest) =
      (foldAtoms (probeFoldedParticipants tools.toMergeTools base members text) w markers,
        probeFoldedParticipants tools.toMergeTools base members text ++ [w]) := by
  rw [replayFoldAtoms, if_neg hne, h]

end Named

/-! ### When the atoms name the workspaces in the conflict -/

section Names

variable {tools : DetailTools} {base : Bytes} {entries front : List PathEntry} {e : PathEntry}
  {text merged : Bytes}

/-- The resolution stops at some change. -/
theorem exists_resolutionStops {tools : MergeTools} {base : Option Bytes}
    (h : resolveEntries (effectiveContents entries) base (diff3WithRetry tools) =
      .ok (.conflict .diff3Conflict)) :
    ∃ b front e text merged, base = some b ∧ ResolutionStops tools b entries front e text merged := by
  obtain ⟨b, first, rest, rfl, hcontents, hfold⟩ := merges_of_diff3Conflict h
  obtain ⟨texts, next, back, mid, rfl, hmerges, hne, hconflict⟩ := foldVariants_conflict hfold
  rw [List.map_append, List.map_cons, ← List.cons_append] at hcontents
  obtain ⟨front, behind, rfl, hfront, hbehind⟩ := List.map_eq_append_iff.mp hcontents
  obtain ⟨e, back', rfl, he, -⟩ := List.map_eq_cons_iff.mp hbehind
  exact ⟨b, front, e, next, mid, rfl, ⟨back', rfl⟩, ⟨first, texts, hfront, hmerges⟩, he, hne,
    hconflict⟩

/-- The repetition for changes that all have a content. -/
theorem recover_eq {first : Bytes} {texts : List Bytes} {f : PathEntry}
    (hf : f.content = some first) (hrest : entries.map (·.content) = texts.map some)
    (hne : texts ≠ []) :
    recoverDiff3AtomsWithParticipants tools (f :: entries) (some base) =
      replayFoldAtoms tools base ((f :: entries).map (·.workspaceId)) first
        [(f.workspaceId, first)] (memberPairs entries) := by
  have htexts : (f :: entries).filterMap (·.content) = first :: texts := by
    rw [List.filterMap_cons_some hf]
    congr 1
    have hmap := congrArg (List.filterMap id) hrest
    rwa [List.filterMap_map, List.filterMap_map, Function.id_comp, Function.id_comp,
      List.filterMap_some] at hmap
  obtain ⟨next, rest, rfl⟩ := List.exists_cons_of_ne_nil hne
  rw [← zip_eq_memberPairs hrest]
  unfold recoverDiff3AtomsWithParticipants
  rw [htexts, List.map_cons]

/-- The atoms name the workspaces in the conflict exactly if the merge alone merges everything in
front of it, and the text with markers has a block of them. -/
theorem recoverDiff3Atoms_names_iff {entries : List PathEntry} {base : Option Bytes}
    (hworkspaces : (entries.map (·.workspaceId)).Nodup)
    (h : resolveEntries (effectiveContents entries) base (diff3WithRetry tools.toMergeTools) =
      .ok (.conflict .diff3Conflict)) :
    ∃ b front e text merged, base = some b ∧
      ResolutionStops tools.toMergeTools b entries front e text merged ∧
      (NamesParticipants tools.toMergeTools b front e text
          (recoverDiff3AtomsWithParticipants tools entries base).1
          (recoverDiff3AtomsWithParticipants tools entries base).2 ↔
        MergesEntries (MergesAlone tools.toMergeTools b) front merged ∧
          ∀ markers, tools.diff3MergeBytes b merged text = .ok (.conflict markers) →
            HasBlock (textLines (fromUtf8Lossy markers))) := by
  obtain ⟨b, first, rest, rfl, hcontents, -⟩ := merges_of_diff3Conflict h
  obtain ⟨b', front, e, text, merged, hb, hstop⟩ := exists_resolutionStops h
  obtain rfl := Option.some.inj hb
  refine ⟨b, front, e, text, merged, rfl, hstop, ?_⟩
  obtain ⟨back, rfl⟩ := hstop.entries
  obtain ⟨first', texts, hfront, hmerges⟩ := hstop.merges
  obtain ⟨f, front', rfl, hf, hfront'⟩ := List.map_eq_cons_iff.mp hfront
  obtain ⟨markers, hmarkers⟩ := exists_markers hstop.conflict
  -- the repetition starts with the text of the first change
  have hpairs : memberPairs (f :: front') = (f.workspaceId, first') :: memberPairs front' :=
    memberPairs_cons hf
  have htail : (memberPairs front').map Prod.snd = texts := memberPairs_snd hfront'
  have hrecover : ∃ behind, recoverDiff3AtomsWithParticipants tools (f :: front' ++ e :: back)
      (some b) = replayFoldAtoms tools b ((f :: front' ++ e :: back).map (·.workspaceId)) first'
        [(f.workspaceId, first')] (memberPairs front' ++ (e.workspaceId, text) :: behind) := by
    rw [List.cons_append, List.map_cons] at hcontents
    obtain ⟨-, hrest⟩ := List.cons.inj hcontents
    have hne : rest ≠ [] := by
      rintro rfl
      rw [List.map_nil, List.map_eq_nil_iff] at hrest
      exact List.append_ne_nil_of_right_ne_nil _ (List.cons_ne_nil _ _) hrest
    refine ⟨memberPairs back, ?_⟩
    rw [List.cons_append, recover_eq hf hrest hne, ← memberPairs_cons hstop.content, memberPairs,
      List.filterMap_append]
    rfl
  obtain ⟨behind, hrecover⟩ := hrecover
  rw [hrecover]
  constructor
  · rintro ⟨hatoms, members, hside, hparticipants, hnames⟩
    rcases alone_or_stops hmerges with halone |
      ⟨before, text', behind', out, markers', heq, halone, hne, hclash⟩
    · refine ⟨⟨first', texts, hfront, halone⟩, fun markers' hmarkers' => ?_⟩
      rw [← htail] at halone
      rw [replayFoldAtoms_append halone, replayFoldAtoms_stop hstop.ne hmarkers'] at hatoms
      exact (parseDiff3Atoms_ne_nil_iff _ _ _).mp hatoms
    · -- the repetition stops at an earlier change, which it names in the place of `e`
      obtain ⟨pairs, pairs', hsplit, rfl, hpairs'⟩ := List.map_eq_append_iff.mp (htail.trans heq)
      obtain ⟨⟨w, t⟩, pairs'', rfl, rfl, -⟩ := List.map_eq_cons_iff.mp hpairs'
      rw [hsplit, List.append_assoc, replayFoldAtoms_append halone] at hparticipants
      change (replayFoldAtoms _ _ _ out _ ((w, t) :: (pairs'' ++ _ :: behind))).2 = _ at hparticipants
      rw [replayFoldAtoms_stop hne hclash] at hparticipants
      have hw : w = e.workspaceId := (List.append_inj' hparticipants rfl).2 |> List.singleton_inj.mp
      have hmem : w ∈ front'.map (·.workspaceId) := by
        rw [← memberPairs_fst hfront', hsplit]
        simp
      rw [List.cons_append, List.map_cons, List.nodup_cons, List.map_append, List.map_cons,
        List.nodup_append] at hworkspaces
      exact absurd rfl (hworkspaces.2.2.2 w hmem w (hw ▸ List.mem_cons_self))
  · rintro ⟨⟨first'', texts', hfront'', halone⟩, hblock⟩
    obtain ⟨hfirst, htexts⟩ := List.cons.inj (hfront.symm.trans hfront'')
    obtain rfl := Option.some.inj hfirst
    obtain rfl := List.map_injective_iff.mpr (Option.some_injective _) htexts
    rw [← htail] at halone
    rw [replayFoldAtoms_append halone, replayFoldAtoms_stop hstop.ne hmarkers]
    refine ⟨(parseDiff3Atoms_ne_nil_iff _ _ _).mpr (hblock markers hmarkers), _, ?_, rfl, ?_⟩
    · rw [hpairs]
      exact isSide_probeFoldedParticipants _ _ _ _
    · exact fun a => workspaces_of_mem_parseDiff3Atoms

end Names

/-! ### A second try in front of the conflict -/

section Samples

private def threeParagraphs : Bytes := "a\n\nb\n\nc\n".toUTF8.toList

private def exchanged : Bytes := "b\n\na\n\nc\n".toUTF8.toList

private def withX : Bytes := "a\n\nx\n\nc\n".toUTF8.toList

private def withY : Bytes := "a\n\ny\n\nc\n".toUTF8.toList

/-- The merges of these texts: a side that is the base gives way, and the other merges are in
conflict. -/
private def paragraphTools : DetailTools where
  diff3MergeBytes base ours theirs := .ok <|
    if ours = base then .clean theirs
    else if theirs = base then .clean ours
    else if ours = exchanged then .conflict
      "<<<<<<< o\nb\n||||||| b\na\n\nb\n=======\na\n\nx\n>>>>>>> t\n\na\n\nc\n".toUTF8.toList
    else .conflict
      "a\n\n<<<<<<< o\nx\n||||||| b\nb\n=======\ny\n>>>>>>> t\n\nc\n".toUTF8.toList
  normalizeShiftedBlocks := normalizeShiftedBlocks
  astMerge _ := none
  repo := sampleRepo
  astAtoms _ _ _ := []

private def paragraphEntry (w : String) (content : Bytes) : PathEntry :=
  ⟨⟨w⟩, .modified, some content, none, none, none⟩

theorem recoverDiff3Atoms_names_iff_paragraphs :
    ([paragraphEntry "bob" withX, paragraphEntry "carol" withY].map (·.workspaceId)).Nodup ∧
    ∃ b front e text merged, some threeParagraphs = some b ∧
      ResolutionStops paragraphTools.toMergeTools b
        [paragraphEntry "bob" withX, paragraphEntry "carol" withY] front e text merged ∧
      (NamesParticipants paragraphTools.toMergeTools b front e text
          (recoverDiff3AtomsWithParticipants paragraphTools
            [paragraphEntry "bob" withX, paragraphEntry "carol" withY] (some threeParagraphs)).1
          (recoverDiff3AtomsWithParticipants paragraphTools
            [paragraphEntry "bob" withX, paragraphEntry "carol" withY] (some threeParagraphs)).2 ↔
        MergesEntries (MergesAlone paragraphTools.toMergeTools b) front merged ∧
          ∀ markers, paragraphTools.diff3MergeBytes b merged text = .ok (.conflict markers) →
            HasBlock (textLines (fromUtf8Lossy markers))) :=
  ⟨by decide, recoverDiff3Atoms_names_iff (by decide) (by decide +kernel)⟩

private def threeEntries : List PathEntry :=
  [paragraphEntry "alice" exchanged, paragraphEntry "bob" withX, paragraphEntry "carol" withY]

/-- Alice and Bob are merged by a second try, and Carol is in conflict with the result; named are
Alice and Bob. -/
theorem recoverDiff3Atoms_names_others :
    resolveEntries (effectiveContents threeEntries) (some threeParagraphs)
        (diff3WithRetry paragraphTools.toMergeTools) = .ok (.conflict .diff3Conflict) ∧
      ResolutionStops paragraphTools.toMergeTools threeParagraphs threeEntries
        [paragraphEntry "alice" exchanged, paragraphEntry "bob" withX]
        (paragraphEntry "carol" withY) withY withX ∧
      (recoverDiff3AtomsWithParticipants paragraphTools threeEntries (some threeParagraphs)).2 =
        [⟨"alice"⟩, ⟨"bob"⟩] ∧
      ((recoverDiff3AtomsWithParticipants paragraphTools threeEntries
        (some threeParagraphs)).1.map fun a => a.edits.map (·.workspace)) = [["alice", "bob"]] := by
  refine ⟨by decide +kernel, ⟨⟨[], rfl⟩, ⟨exchanged, [withX], rfl, ?_⟩, rfl, by decide +kernel,
    by decide +kernel⟩, by decide +kernel, by decide +kernel⟩
  refine .step (by decide +kernel) ?_ (.nil withX)
  rw [Retried]
  decide +kernel

end Samples

end Maw
