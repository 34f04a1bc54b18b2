import Maw.Merge.Diff3Atoms

/-!
# Keeping the lines of both sides

A conflict is resolved by the union of its sides: the three-way merge is made with markers, and
each block of markers is replaced by the lines of ours and those of theirs that ours does not have.
The blocks are found again in the text of the merge by their markers, each of which must be a whole
line.

## Main definitions

* `dedupConflictMarkers`, `unionDedupMerge` — the union of the sides.
* `MarkedChunk`, `markedText` — a merge, and its text with markers.
* `unionText` — the merge with the union of the sides in place of its hunks.

## Main results

* `dedupLines_markedLines` — the union, when the markers stand out.
* `unionDedupMerge_iff` — when the result is the union.
-/

open Lines

namespace Maw

/-! ### The blocks of markers -/

/-- A marker with its label. -/
def markerLine (marker : Bytes) (label : String) : Bytes := marker ++ 0x20 :: label.toUTF8.toList

/-- The lines with the union of the sides in place of blocks of markers. -/
def dedupLines (oursLabel baseLabel theirsLabel : String) : List Bytes → List Bytes
  | [] => []
  | line :: lines =>
    if line = markerLine oursMarker oursLabel then
      let block := cutAt (markerLine baseMarker baseLabel) lines
      let ours := block.1
      let afterBase := cutAt splitMarker block.2
      let theirs := cutAt (markerLine theirsMarker theirsLabel) afterBase.2
      ours ++ theirs.1.filter (fun line => !ours.contains line) ++
        dedupLines oursLabel baseLabel theirsLabel theirs.2
    else line :: dedupLines oursLabel baseLabel theirsLabel lines
termination_by lines => lines.length
decreasing_by
  · exact Nat.lt_succ_of_le ((length_cutAt_le _ _).trans
      ((length_cutAt_le _ _).trans (length_cutAt_le _ _)))
  · exact Nat.lt_succ_self _

/-- The lines of a text without the line feed at its end. -/
def bodyLines (body : Bytes) : List Bytes := if body.isEmpty then [] else body.splitOn 0x0A

def dedupConflictMarkers (bytes : Bytes) (oursLabel baseLabel theirsLabel : String) : Bytes :=
  if bytes.getLast? = some 0x0A then
    [0x0A].intercalate (dedupLines oursLabel baseLabel theirsLabel (bodyLines bytes.dropLast)) ++
      [0x0A]
  else [0x0A].intercalate (dedupLines oursLabel baseLabel theirsLabel (bodyLines bytes))

/-- The three-way merge with the union of the sides in place of its hunks. -/
def unionDedupMerge (repo : Repo) (base ours theirs : Bytes)
    (oursLabel baseLabel theirsLabel : String) : Bytes :=
  match mergeTextWithStyle repo base ours theirs oursLabel baseLabel theirsLabel .diff3 with
  | .clean merged => merged
  | .conflict marked => dedupConflictMarkers marked oursLabel baseLabel theirsLabel

/-! ### Merges with markers -/

/-- A hunk in conflict. A marker has a carriage return at its end if the lines that it belongs to
have one; the separator belongs to the base. -/
structure MarkedHunk where
  ours : List Bytes
  base : List Bytes
  theirs : List Bytes
  oursReturn : Bool
  baseReturn : Bool
  theirsReturn : Bool

/-- Lines without a conflict, or a hunk. -/
inductive MarkedChunk
  | clean (lines : List Bytes)
  | conflict (hunk : MarkedHunk)

/-- What stands behind a marker on its line. -/
def returnIf (b : Bool) : Bytes := if b then [0x0D] else []

namespace MarkedHunk

def markedLines (oursLabel baseLabel theirsLabel : String) (h : MarkedHunk) : List Bytes :=
  (markerLine oursMarker oursLabel ++ returnIf h.oursReturn) :: (h.ours ++
    (markerLine baseMarker baseLabel ++ returnIf h.baseReturn) :: (h.base ++
      (splitMarker ++ returnIf h.baseReturn) :: (h.theirs ++
        [markerLine theirsMarker theirsLabel ++ returnIf h.theirsReturn])))

/-- The lines of ours, and those of theirs that ours does not have. -/
def unionLines (h : MarkedHunk) : List Bytes :=
  h.ours ++ h.theirs.filter fun line => !h.ours.contains line

/-- All lines of the versions. -/
def content (h : MarkedHunk) : List Bytes := h.ours ++ (h.base ++ h.theirs)

end MarkedHunk

namespace MarkedChunk

def markedLines (oursLabel baseLabel theirsLabel : String) : MarkedChunk → List Bytes
  | clean lines => lines
  | conflict hunk => hunk.markedLines oursLabel baseLabel theirsLabel

def unionLines : MarkedChunk → List Bytes
  | clean lines => lines
  | conflict hunk => hunk.unionLines

/-- The lines of the versions. -/
def content : MarkedChunk → List Bytes
  | clean lines => lines
  | conflict hunk => hunk.content

end MarkedChunk

/-- The text of a merge; its last line may have no line feed behind it. -/
def markedText (oursLabel baseLabel theirsLabel : String) (chunks : List MarkedChunk)
    (last : Bytes) : Bytes :=
  unlines 0x0A (chunks.flatMap (·.markedLines oursLabel baseLabel theirsLabel)) ++ last

/-- The text with the union of the sides in place of the hunks. -/
def unionText (chunks : List MarkedChunk) (last : Bytes) : Bytes :=
  unlines 0x0A (chunks.flatMap (·.unionLines)) ++ last

/-- Lines, and what stands behind the last of them if it is not empty. -/
def withLast (lines : List Bytes) (last : Bytes) : List Bytes :=
  lines ++ if last = [] then [] else [last]

/-- The markers with labels. -/
def labelMarkers (oursLabel baseLabel theirsLabel : String) : List Bytes :=
  [markerLine oursMarker oursLabel, markerLine baseMarker baseLabel,
    markerLine theirsMarker theirsLabel]

section Dedup

variable (oursLabel baseLabel theirsLabel : String)

/-- The markers of a hunk stand out: they are whole lines, no line is the marker that ends the part
in which it stands, and if a line of the base is a separator, ours has that line and all those that
follow it in the base. -/
structure MarkedHunk.StandsOut (h : MarkedHunk) : Prop where
  no_return : h.oursReturn = false ∧ h.baseReturn = false ∧ h.theirsReturn = false
  ours : markerLine baseMarker baseLabel ∉ h.ours
  base : ∀ line ∈ h.base.dropWhile (· ≠ splitMarker), line ∈ h.ours ∧
    line ≠ markerLine theirsMarker theirsLabel
  theirs : markerLine theirsMarker theirsLabel ∉ h.theirs

/-- Lines without a conflict do not begin a hunk. -/
def MarkedChunk.StandsOut : MarkedChunk → Prop
  | .clean lines => markerLine oursMarker oursLabel ∉ lines
  | .conflict hunk => hunk.StandsOut baseLabel theirsLabel

/-- No line is a marker with its label. -/
def NoMarkerLine (lines : List Bytes) : Prop :=
  ∀ marker ∈ labelMarkers oursLabel baseLabel theirsLabel, ∀ b : Bool,
    marker ++ returnIf b ∉ lines

variable {oursLabel baseLabel theirsLabel}

theorem MarkedHunk.mem_unionLines {h : MarkedHunk} {line : Bytes} :
    line ∈ h.unionLines ↔ line ∈ h.ours ∨ line ∈ h.theirs := by
  rw [unionLines, List.mem_append, List.mem_filter, Bool.not_eq_true', List.contains_eq_mem,
    decide_eq_false_iff_not]
  constructor
  · rintro (hours | htheirs)
    · exact .inl hours
    · exact .inr htheirs.1
  · rintro (hours | htheirs)
    · exact .inl hours
    · by_cases hours : line ∈ h.ours
      · exact .inl hours
      · exact .inr ⟨htheirs, hours⟩

/-! ### The lines of a merge -/

theorem dedupLines_append {lines : List Bytes} (h : markerLine oursMarker oursLabel ∉ lines)
    (rest : List Bytes) :
    dedupLines oursLabel baseLabel theirsLabel (lines ++ rest) =
      lines ++ dedupLines oursLabel baseLabel theirsLabel rest := by
  induction lines with
  | nil => rfl
  | cons line lines ih =>
    obtain ⟨hne, hlines⟩ := not_or.mp (List.mem_cons.not.mp h)
    rw [List.cons_append, dedupLines, if_neg (Ne.symm hne), ih hlines, List.cons_append]

theorem dedupLines_of_not_mem {lines : List Bytes}
    (h : markerLine oursMarker oursLabel ∉ lines) :
    dedupLines oursLabel baseLabel theirsLabel lines = lines := by
  rw [← List.append_nil lines, dedupLines_append h, dedupLines]

/-- The lines that are taken for those of theirs. -/
def seenTheirs (h : MarkedHunk) : List Bytes :=
  (h.base.dropWhile (· ≠ splitMarker) ++ splitMarker :: h.theirs).tail

theorem cutAt_splitMarker (h : MarkedHunk) (rest : List Bytes) :
    (cutAt splitMarker (h.base ++ splitMarker :: (h.theirs ++ rest))).2 =
      seenTheirs h ++ rest := by
  rw [cutAt, seenTheirs, List.dropWhile_append]
  rcases hdrop : h.base.dropWhile (· ≠ splitMarker) with _ | ⟨line, lines⟩
  · simp
  · simp

/-- Where a block of markers begins, ours is kept, and the rest of theirs is behind it. -/
theorem dedupLines_hunk {h : MarkedHunk} (hours : h.oursReturn = false)
    (hbase : h.baseReturn = false) (hmarker : markerLine baseMarker baseLabel ∉ h.ours)
    (rest : List Bytes) :
    dedupLines oursLabel baseLabel theirsLabel
        (h.markedLines oursLabel baseLabel theirsLabel ++ rest) =
      h.ours ++ (cutAt (markerLine theirsMarker theirsLabel) (seenTheirs h ++
          (markerLine theirsMarker theirsLabel ++ returnIf h.theirsReturn) :: rest)).1.filter
            (fun line => !h.ours.contains line) ++
        dedupLines oursLabel baseLabel theirsLabel
          (cutAt (markerLine theirsMarker theirsLabel) (seenTheirs h ++
            (markerLine theirsMarker theirsLabel ++ returnIf h.theirsReturn) :: rest)).2 := by
  have hlines : h.markedLines oursLabel baseLabel theirsLabel ++ rest =
      markerLine oursMarker oursLabel :: (h.ours ++ markerLine baseMarker baseLabel :: (h.base ++
        splitMarker :: (h.theirs ++
          (markerLine theirsMarker theirsLabel ++ returnIf h.theirsReturn) :: rest))) := by
    rw [MarkedHunk.markedLines, hours, hbase]
    simp [returnIf]
  have hblock := cutAt_append hmarker (markerLine baseMarker baseLabel :: (h.base ++
    splitMarker :: (h.theirs ++
      (markerLine theirsMarker theirsLabel ++ returnIf h.theirsReturn) :: rest)))
  rw [cutAt_cons_self, List.append_nil] at hblock
  rw [hlines, dedupLines, if_pos rfl, hblock]
  dsimp only
  rw [cutAt_splitMarker]

/-- A block whose markers are found is replaced by a union of its sides. -/
theorem dedupLines_seen {h : MarkedHunk} (hours : h.oursReturn = false)
    (hbase : h.baseReturn = false) (htheirs : h.theirsReturn = false)
    (hmarker : markerLine baseMarker baseLabel ∉ h.ours)
    (hmarker' : markerLine theirsMarker theirsLabel ∉ seenTheirs h) (rest : List Bytes) :
    dedupLines oursLabel baseLabel theirsLabel
        (h.markedLines oursLabel baseLabel theirsLabel ++ rest) =
      h.ours ++ (seenTheirs h).filter (fun line => !h.ours.contains line) ++
        dedupLines oursLabel baseLabel theirsLabel rest := by
  rw [dedupLines_hunk hours hbase hmarker, htheirs, cutAt_append hmarker', returnIf,
    if_neg Bool.false_ne_true, List.append_nil, cutAt_cons_self, List.append_nil]

theorem markerLine_ne_splitMarker : markerLine theirsMarker theirsLabel ≠ splitMarker := by
  intro h
  have hhead := congrArg List.head? h
  have htheirs : theirsMarker.head? = some 0x3E := by decide +kernel
  have hsplit : splitMarker.head? = some 0x3D := by decide +kernel
  rw [markerLine, List.head?_append, htheirs, hsplit] at hhead
  cases hhead

theorem mem_seenTheirs {h : MarkedHunk} {line : Bytes} (hline : line ∈ seenTheirs h) :
    line ∈ h.base.dropWhile (· ≠ splitMarker) ∨ line = splitMarker ∨ line ∈ h.theirs := by
  have hmem := List.mem_of_mem_tail hline
  rwa [List.mem_append, List.mem_cons] at hmem

theorem seenTheirs_cases (h : MarkedHunk) :
    (h.base.dropWhile (· ≠ splitMarker) = [] ∧ seenTheirs h = h.theirs) ∨
      ∃ lines, h.base.dropWhile (· ≠ splitMarker) = splitMarker :: lines ∧
        seenTheirs h = lines ++ splitMarker :: h.theirs := by
  rw [seenTheirs]
  rcases hdrop : h.base.dropWhile (· ≠ splitMarker) with _ | ⟨line, lines⟩
  · exact .inl ⟨rfl, rfl⟩
  · have hline : line = splitMarker := by
      have hhead := List.head?_dropWhile_not (· ≠ splitMarker) h.base
      rw [hdrop] at hhead
      simpa using hhead
    exact .inr ⟨lines, by rw [hline], rfl⟩

/-- Of the lines of the base, those from a separator on are added to theirs. -/
theorem length_filter_seenTheirs (h : MarkedHunk) (p : Bytes → Bool) :
    ((seenTheirs h).filter p).length =
      ((h.base.dropWhile (· ≠ splitMarker)).filter p).length + (h.theirs.filter p).length := by
  rcases seenTheirs_cases h with ⟨hdrop, hseen⟩ | ⟨lines, hdrop, hseen⟩
  · rw [hdrop, hseen, List.filter_nil, List.length_nil, Nat.zero_add]
  · rw [hdrop, hseen, List.filter_append, List.length_append, List.filter_cons, List.filter_cons]
    split_ifs
    · simp only [List.length_cons]
      omega
    · rfl

/-- If ours has the lines of the base from a separator on, none of them is added. -/
theorem filter_seenTheirs {h : MarkedHunk}
    (hbase : ∀ line ∈ h.base.dropWhile (· ≠ splitMarker), line ∈ h.ours) :
    (seenTheirs h).filter (fun line => !h.ours.contains line) =
      h.theirs.filter fun line => !h.ours.contains line := by
  rcases seenTheirs_cases h with ⟨-, hseen⟩ | ⟨lines, hdrop, hseen⟩
  · rw [hseen]
  · rw [hdrop, List.forall_mem_cons] at hbase
    have hnil : lines.filter (fun line => !h.ours.contains line) = [] := by
      rw [List.filter_eq_nil_iff]
      intro line hline
      simpa using hbase.2 line hline
    rw [hseen, List.filter_append, hnil, List.nil_append, List.filter_cons_of_neg]
    simpa using hbase.1

theorem StandsOut.notMem_seenTheirs {h : MarkedHunk} (hout : h.StandsOut baseLabel theirsLabel) :
    markerLine theirsMarker theirsLabel ∉ seenTheirs h := by
  intro hmem
  rcases mem_seenTheirs hmem with hbase | hsplit | htheirs
  · exact (hout.base _ hbase).2 rfl
  · exact markerLine_ne_splitMarker hsplit
  · exact hout.theirs htheirs

/-- The lines of a merge whose markers stand out are those with the unions of the sides. -/
theorem dedupLines_markedLines {chunks : List MarkedChunk}
    (h : ∀ c ∈ chunks, c.StandsOut oursLabel baseLabel theirsLabel) (rest : List Bytes) :
    dedupLines oursLabel baseLabel theirsLabel
        (chunks.flatMap (·.markedLines oursLabel baseLabel theirsLabel) ++ rest) =
      chunks.flatMap (·.unionLines) ++ dedupLines oursLabel baseLabel theirsLabel rest := by
  induction chunks with
  | nil => rfl
  | cons c chunks ih =>
    obtain ⟨hc, hchunks⟩ := List.forall_mem_cons.mp h
    rw [List.flatMap_cons, List.flatMap_cons, List.append_assoc, List.append_assoc]
    cases c with
    | clean lines => 
      rw [MarkedChunk.markedLines, dedupLines_append hc, ih hchunks]
      rfl
    | conflict hunk =>
      obtain ⟨hours, hbase, htheirs⟩ := hc.no_return
      rw [MarkedChunk.markedLines, dedupLines_seen hours hbase htheirs hc.ours
        (StandsOut.notMem_seenTheirs hc), ih hchunks,
        filter_seenTheirs fun line hline => (hc.base line hline).1]
      rfl

theorem NoMarkerLine.plain {lines : List Bytes} {marker : Bytes}
    (h : NoMarkerLine oursLabel baseLabel theirsLabel lines)
    (hmarker : marker ∈ labelMarkers oursLabel baseLabel theirsLabel) : marker ∉ lines := by
  have hnot := h marker hmarker false
  rwa [returnIf, if_neg Bool.false_ne_true, List.append_nil] at hnot

theorem NoMarkerLine.mono {lines lines' : List Bytes}
    (h : NoMarkerLine oursLabel baseLabel theirsLabel lines) (hsub : lines' ⊆ lines) :
    NoMarkerLine oursLabel baseLabel theirsLabel lines' :=
  fun marker hmarker b hmem => h marker hmarker b (hsub hmem)

theorem NoMarkerLine.notMem_ours {h : MarkedHunk}
    (hcontent : NoMarkerLine oursLabel baseLabel theirsLabel h.content) :
    markerLine baseMarker baseLabel ∉ h.ours := fun hmem =>
  hcontent.plain (by simp [labelMarkers]) (List.mem_append_left _ hmem)

theorem NoMarkerLine.notMem_theirsMarker {lines : List Bytes}
    (h : NoMarkerLine oursLabel baseLabel theirsLabel lines) :
    markerLine theirsMarker theirsLabel ∉ lines :=
  h.plain (by simp [labelMarkers])

theorem seenTheirs_subset (h : MarkedHunk) : seenTheirs h ⊆ splitMarker :: h.content := by
  intro line hline
  rw [MarkedHunk.content, List.mem_cons, List.mem_append, List.mem_append]
  rcases mem_seenTheirs hline with hbase | hsplit | htheirs
  · exact .inr (.inr (.inl ((List.dropWhile_suffix _).subset hbase)))
  · exact .inl hsplit
  · exact .inr (.inr (.inr htheirs))

theorem NoMarkerLine.notMem_seenTheirs {h : MarkedHunk}
    (hcontent : NoMarkerLine oursLabel baseLabel theirsLabel h.content) :
    markerLine theirsMarker theirsLabel ∉ seenTheirs h := by
  intro hmem
  rcases List.mem_cons.mp (seenTheirs_subset h hmem) with hsplit | hmem
  · exact markerLine_ne_splitMarker hsplit
  · exact hcontent.notMem_theirsMarker hmem

/-- Markers with a carriage return are found in the result. -/
theorem no_return_of_hunk {h : MarkedHunk} {rest : List Bytes}
    (hcontent : NoMarkerLine oursLabel baseLabel theirsLabel h.content)
    (hout : ∀ marker ∈ labelMarkers oursLabel baseLabel theirsLabel, marker ++ [0x0D] ∉
      dedupLines oursLabel baseLabel theirsLabel
        (h.markedLines oursLabel baseLabel theirsLabel ++ rest)) :
    h.oursReturn = false ∧ h.baseReturn = false ∧ h.theirsReturn = false := by
  have hours : h.oursReturn = false := by
    refine Bool.eq_false_iff.mpr fun hreturn => hout _ List.mem_cons_self ?_
    rw [MarkedHunk.markedLines, hreturn, List.cons_append, dedupLines,
      if_neg (by simp [returnIf]), returnIf, if_pos rfl]
    exact List.mem_cons_self
  have hbase : h.baseReturn = false := by
    -- Ours goes on behind the marker of the base.
    refine Bool.eq_false_iff.mpr fun hreturn =>
      hout (markerLine baseMarker baseLabel) (by simp [labelMarkers]) ?_
    rw [MarkedHunk.markedLines, hours, hreturn, List.cons_append, returnIf,
      if_neg Bool.false_ne_true, List.append_nil, dedupLines, if_pos rfl, List.append_assoc]
    refine List.mem_append_left _ ?_
    rw [List.append_assoc, List.cons_append, cutAt_append hcontent.notMem_ours, returnIf,
      if_pos rfl,
      cutAt_cons_of_ne (by simp)]
    exact List.mem_append_right _ List.mem_cons_self
  refine ⟨hours, hbase, ?_⟩
  -- Theirs goes on behind its marker, which is no line of ours.
  refine Bool.eq_false_iff.mpr fun hreturn =>
    hout (markerLine theirsMarker theirsLabel) (by simp [labelMarkers]) ?_
  have hnot : markerLine theirsMarker theirsLabel ++ [0x0D] ∉ h.ours := fun hmem =>
    hcontent (markerLine theirsMarker theirsLabel) (by simp [labelMarkers]) true
      (List.mem_append_left _ hmem)
  rw [dedupLines_hunk hours hbase hcontent.notMem_ours, hreturn,
    cutAt_append hcontent.notMem_seenTheirs, returnIf, if_pos rfl,
    cutAt_cons_of_ne (by simp)]
  refine List.mem_append_left _ (List.mem_append_right _ (List.mem_filter.mpr ⟨?_, ?_⟩))
  · exact List.mem_append_right _ List.mem_cons_self
  · rwa [Bool.not_eq_true', List.contains_eq_mem, decide_eq_false_iff_not]

/-- Lines of markers with a carriage return are found in the result. -/
theorem no_return_of_dedupLines {chunks : List MarkedChunk} {rest : List Bytes}
    (hcontent : NoMarkerLine oursLabel baseLabel theirsLabel (chunks.flatMap (·.content)))
    (hout : ∀ marker ∈ labelMarkers oursLabel baseLabel theirsLabel, marker ++ [0x0D] ∉
      dedupLines oursLabel baseLabel theirsLabel
        (chunks.flatMap (·.markedLines oursLabel baseLabel theirsLabel) ++ rest)) :
    ∀ h, .conflict h ∈ chunks →
      h.oursReturn = false ∧ h.baseReturn = false ∧ h.theirsReturn = false := by
  induction chunks with
  | nil => nofun
  | cons c chunks ih =>
    rw [List.flatMap_cons, List.append_assoc] at hout
    rw [List.flatMap_cons] at hcontent
    have hchunks : NoMarkerLine oursLabel baseLabel theirsLabel (chunks.flatMap (·.content)) :=
      fun marker hmarker b hmem => hcontent marker hmarker b (List.mem_append_right _ hmem)
    have hnone : NoMarkerLine oursLabel baseLabel theirsLabel c.content :=
      fun marker hmarker b hmem => hcontent marker hmarker b (List.mem_append_left _ hmem)
    cases c with
    | clean lines =>
      have hours : markerLine oursMarker oursLabel ∉ lines := hnone.plain List.mem_cons_self
      rw [MarkedChunk.markedLines, dedupLines_append hours] at hout
      intro h hmem
      refine ih hchunks (fun marker hmarker hmem' => ?_) h
        ((List.mem_cons.mp hmem).resolve_left nofun)
      exact hout marker hmarker (List.mem_append_right _ hmem')
    | conflict hunk =>
      have hno := no_return_of_hunk hnone hout
      rw [MarkedChunk.markedLines, dedupLines_seen hno.1 hno.2.1 hno.2.2 hnone.notMem_ours
        hnone.notMem_seenTheirs] at hout
      intro h hmem
      rcases List.mem_cons.mp hmem with heq | hmem
      · cases heq
        exact hno
      · exact ih hchunks (fun marker hmarker hmem' =>
          hout marker hmarker (List.mem_append_right _ hmem')) h hmem

theorem MarkedChunk.unionLines_subset (c : MarkedChunk) : c.unionLines ⊆ c.content := by
  cases c with
  | clean lines => exact List.Subset.refl lines
  | conflict hunk =>
    intro line hline
    rcases MarkedHunk.mem_unionLines.mp hline with hours | htheirs
    · exact List.mem_append_left _ hours
    · exact List.mem_append_right _ (List.mem_append_right _ htheirs)

/-- The result has as many lines as the unions, or more; as many only if markers stand out. -/
theorem standsOut_of_length {chunks : List MarkedChunk} {rest : List Bytes}
    (hcontent : NoMarkerLine oursLabel baseLabel theirsLabel
      (chunks.flatMap (·.content) ++ rest))
    (hreturn : ∀ h, .conflict h ∈ chunks →
      h.oursReturn = false ∧ h.baseReturn = false ∧ h.theirsReturn = false) :
    (chunks.flatMap (·.unionLines) ++ rest).length ≤
        (dedupLines oursLabel baseLabel theirsLabel
          (chunks.flatMap (·.markedLines oursLabel baseLabel theirsLabel) ++ rest)).length ∧
      ((dedupLines oursLabel baseLabel theirsLabel
          (chunks.flatMap (·.markedLines oursLabel baseLabel theirsLabel) ++ rest)).length =
        (chunks.flatMap (·.unionLines) ++ rest).length →
        ∀ c ∈ chunks, c.StandsOut oursLabel baseLabel theirsLabel) := by
  induction chunks with
  | nil =>
    rw [List.flatMap_nil, List.nil_append] at hcontent
    rw [List.flatMap_nil, List.flatMap_nil, List.nil_append,
      dedupLines_of_not_mem (hcontent.plain List.mem_cons_self)]
    exact ⟨le_rfl, fun _ => nofun⟩
  | cons c chunks ih =>
    rw [List.flatMap_cons, List.append_assoc] at hcontent
    have hc := hcontent.mono (List.subset_append_left c.content _)
    obtain ⟨hle, hout⟩ := ih (hcontent.mono (List.subset_append_right c.content _))
      fun h hmem => hreturn h (List.mem_cons_of_mem _ hmem)
    rw [List.flatMap_cons, List.flatMap_cons, List.append_assoc, List.append_assoc,
      List.forall_mem_cons]
    cases c with
    | clean lines =>
      have hours : markerLine oursMarker oursLabel ∉ lines := hc.plain List.mem_cons_self
      rw [MarkedChunk.markedLines, MarkedChunk.unionLines, dedupLines_append hours]
      simp only [List.length_append] at hle hout ⊢
      exact ⟨Nat.add_le_add_left hle _, fun heq => ⟨hours, hout (Nat.add_left_cancel heq)⟩⟩
    | conflict hunk =>
      have hno := hreturn hunk List.mem_cons_self
      have hlength := length_filter_seenTheirs hunk fun line => !hunk.ours.contains line
      rw [MarkedChunk.markedLines, dedupLines_seen hno.1 hno.2.1 hno.2.2 hc.notMem_ours
        hc.notMem_seenTheirs, MarkedChunk.unionLines, MarkedHunk.unionLines]
      simp only [List.length_append, hlength] at hle hout ⊢
      refine ⟨by omega, fun heq => ⟨⟨hno, hc.notMem_ours, fun line hline => ?_, ?_⟩,
        hout (by omega)⟩⟩
      · have hnil : (hunk.base.dropWhile (· ≠ splitMarker)).filter
            (fun line => !hunk.ours.contains line) = [] := List.length_eq_zero_iff.mp (by omega)
        have hours := List.filter_eq_nil_iff.mp hnil line hline
        rw [Bool.not_eq_true', Bool.not_eq_false, List.contains_iff_mem] at hours
        refine ⟨hours, ?_⟩
        rintro rfl
        refine hc.notMem_theirsMarker (List.mem_append_right _ ?_)
        exact List.mem_append_left _ ((List.dropWhile_suffix _).subset hline)
      · exact fun hmem => hc.notMem_theirsMarker
          (List.mem_append_right _ (List.mem_append_right _ hmem))

/-- Without lines of markers, the result of a merge has the lines of the unions only if the markers
stand out. -/
theorem standsOut_of_dedupLines {chunks : List MarkedChunk} {rest : List Bytes}
    (hcontent : NoMarkerLine oursLabel baseLabel theirsLabel
      (chunks.flatMap (·.content) ++ rest))
    (heq : dedupLines oursLabel baseLabel theirsLabel
        (chunks.flatMap (·.markedLines oursLabel baseLabel theirsLabel) ++ rest) =
      chunks.flatMap (·.unionLines) ++ rest) :
    ∀ c ∈ chunks, c.StandsOut oursLabel baseLabel theirsLabel := by
  have hsub : chunks.flatMap (·.unionLines) ++ rest ⊆ chunks.flatMap (·.content) ++ rest := by
    intro line hline
    rcases List.mem_append.mp hline with hline | hline
    · obtain ⟨c, hc, hline⟩ := List.mem_flatMap.mp hline
      exact List.mem_append_left _ (List.mem_flatMap.mpr ⟨c, hc, c.unionLines_subset hline⟩)
    · exact List.mem_append_right _ hline
  have hreturn := no_return_of_dedupLines (hcontent.mono (List.subset_append_left _ _))
    fun marker hmarker => by
      rw [heq]
      exact fun hmem => hcontent marker hmarker true (hsub hmem)
  exact (standsOut_of_length hcontent hreturn).2 (congrArg List.length heq)

/-! ### The text of a merge -/

/-- No line has a line feed, and in a hunk one of the sides has a line. -/
def MarkedChunk.WellFormed : MarkedChunk → Prop
  | .clean lines => ∀ line ∈ lines, 0x0A ∉ line
  | .conflict hunk => (∀ line ∈ hunk.content, 0x0A ∉ line) ∧ (hunk.ours ≠ [] ∨ hunk.theirs ≠ [])

theorem intercalate_withLast {lines : List Bytes} {last : Bytes} (h : lines ≠ [] ∨ last ≠ []) :
    [0x0A].intercalate (withLast lines last) ++ (if last = [] then [0x0A] else []) =
      unlines 0x0A lines ++ last := by
  rw [withLast]
  split_ifs with hlast
  · rw [List.append_nil, intercalate_append_sep (h.resolve_right (not_not.mpr hlast)), hlast,
      List.append_nil]
  · rw [List.append_nil, intercalate_concat]

theorem withLast_ne_nil {lines : List Bytes} {last : Bytes} (h : lines ≠ [] ∨ last ≠ []) :
    withLast lines last ≠ [] := by
  rw [withLast]
  split_ifs with hnil
  · rw [List.append_nil]
    exact h.resolve_right (not_not.mpr hnil)
  · exact List.append_ne_nil_of_right_ne_nil _ (List.cons_ne_nil _ _)

theorem forall_mem_withLast {lines : List Bytes} {last : Bytes}
    (hlines : ∀ line ∈ lines, 0x0A ∉ line) (hlast : 0x0A ∉ last) :
    ∀ line ∈ withLast lines last, 0x0A ∉ line := by
  intro line hline
  rw [withLast] at hline
  rcases List.mem_append.mp hline with hline | hline
  · exact hlines line hline
  · split_ifs at hline
    · cases hline
    · rwa [List.mem_singleton.mp hline]

/-- One empty line is taken for none, which has the same text. -/
theorem intercalate_dedupLines_bodyLines {lines : List Bytes} (h : lines ≠ [])
    (hlines : ∀ line ∈ lines, 0x0A ∉ line) :
    [0x0A].intercalate (dedupLines oursLabel baseLabel theirsLabel
        (bodyLines ([0x0A].intercalate lines))) =
      [0x0A].intercalate (dedupLines oursLabel baseLabel theirsLabel lines) := by
  have hsplit := List.splitOn_intercalate 0x0A hlines h
  rw [bodyLines]
  split_ifs with hempty
  · rw [List.isEmpty_iff.mp hempty] at hsplit
    have hne : [] ≠ markerLine oursMarker oursLabel := fun heq => by
      rw [markerLine] at heq
      exact absurd heq (by simp)
    rw [← hsplit, List.splitOn_nil, dedupLines, dedupLines, if_neg hne, dedupLines]
    rfl
  · rw [hsplit]

/-- The lines of a text are rewritten, and its last one has a line feed if it had one. -/
theorem dedupConflictMarkers_unlines {lines : List Bytes} {last : Bytes}
    (h : lines ≠ [] ∨ last ≠ []) (hlines : ∀ line ∈ lines, 0x0A ∉ line) (hlast : 0x0A ∉ last) :
    dedupConflictMarkers (unlines 0x0A lines ++ last) oursLabel baseLabel theirsLabel =
      [0x0A].intercalate (dedupLines oursLabel baseLabel theirsLabel (withLast lines last)) ++
        if last = [] then [0x0A] else [] := by
  have hbody : [0x0A].intercalate (dedupLines oursLabel baseLabel theirsLabel
      (bodyLines ([0x0A].intercalate (withLast lines last)))) = _ :=
    intercalate_dedupLines_bodyLines (withLast_ne_nil h) (forall_mem_withLast hlines hlast)
  have htext := intercalate_withLast h
  rw [dedupConflictMarkers, ← hbody, ← htext]
  rcases eq_or_ne last [] with rfl | hne
  · rw [if_pos rfl, List.getLast?_concat, if_pos rfl, List.dropLast_concat]
  · have hend : (unlines 0x0A lines ++ last).getLast? ≠ some 0x0A := by
      intro hend
      rw [List.getLast?_append_of_ne_nil _ hne] at hend
      exact hlast (List.mem_of_getLast? hend)
    rw [if_neg hne, List.append_nil] at htext ⊢
    rw [htext, if_neg hend, List.append_nil]

theorem dedupLines_subset (lines : List Bytes) :
    dedupLines oursLabel baseLabel theirsLabel lines ⊆ lines := by
  induction lines using dedupLines.induct oursLabel baseLabel theirsLabel with
  | case1 =>
    rw [dedupLines]
    exact List.Subset.refl []
  | case2 lines block afterBase theirs =>
    rename_i ih
    have hafter : afterBase.2 ⊆ lines :=
      List.Subset.trans (snd_cutAt_subset _ block.2) (snd_cutAt_subset _ lines)
    rw [dedupLines, if_pos rfl]
    refine List.subset_cons_of_subset _
      (List.append_subset.mpr ⟨List.append_subset.mpr ⟨?_, ?_⟩, ?_⟩)
    · exact fst_cutAt_subset _ lines
    · exact List.Subset.trans (List.filter_subset_self _)
        (List.Subset.trans (fst_cutAt_subset _ afterBase.2) hafter)
    · exact List.Subset.trans ih (List.Subset.trans (snd_cutAt_subset _ afterBase.2) hafter)
  | case3 line lines hne ih =>
    rw [dedupLines, if_neg hne]
    exact List.cons_subset_cons line ih

variable (oursLabel baseLabel theirsLabel)

/-- A merge with a hunk in conflict. -/
structure IsMarkedMerge (chunks : List MarkedChunk) (last : Bytes) : Prop where
  wellFormed : ∀ c ∈ chunks, c.WellFormed
  exists_conflict : ∃ h, .conflict h ∈ chunks
  last : 0x0A ∉ last

/-- The markers stand out, also in what is behind the last line feed. -/
def MarkersStandOut (chunks : List MarkedChunk) (last : Bytes) : Prop :=
  (∀ c ∈ chunks, c.StandsOut oursLabel baseLabel theirsLabel) ∧
    last ≠ markerLine oursMarker oursLabel

variable {oursLabel baseLabel theirsLabel}

theorem MarkedChunk.WellFormed.markedLines {c : MarkedChunk} (h : c.WellFormed)
    (hlabels : ∀ label ∈ [oursLabel, baseLabel, theirsLabel], 0x0A ∉ label.toUTF8.toList) :
    ∀ line ∈ c.markedLines oursLabel baseLabel theirsLabel, 0x0A ∉ line := by
  cases c with
  | clean lines => exact h
  | conflict hunk =>
    have hcontent := h.1
    have hreturn : ∀ b, 0x0A ∉ returnIf b := by decide
    have hmarker (marker : Bytes) (label : String) (hmarker : 0x0A ∉ marker)
        (hlabel : 0x0A ∉ label.toUTF8.toList) (b : Bool) :
        0x0A ∉ markerLine marker label ++ returnIf b := by
      simp only [markerLine, List.mem_append, List.mem_cons, not_or]
      exact ⟨⟨hmarker, by decide, hlabel⟩, hreturn b⟩
    simp only [List.forall_mem_cons] at hlabels
    simp only [MarkedHunk.content, List.forall_mem_append] at hcontent
    simp only [MarkedChunk.markedLines, MarkedHunk.markedLines, List.forall_mem_cons,
      List.forall_mem_append]
    refine ⟨hmarker _ _ (by decide +kernel) hlabels.1 _, hcontent.1,
      hmarker _ _ (by decide +kernel) hlabels.2.1 _, hcontent.2.1, ?_, hcontent.2.2,
      hmarker _ _ (by decide +kernel) hlabels.2.2.1 _, nofun⟩
    rw [List.mem_append, not_or]
    exact ⟨by decide +kernel, hreturn _⟩

theorem MarkedChunk.WellFormed.unionLines {c : MarkedChunk} (h : c.WellFormed) :
    ∀ line ∈ c.unionLines, 0x0A ∉ line := by
  intro line hline
  have hmem := c.unionLines_subset hline
  cases c with
  | clean lines => exact h line hmem
  | conflict hunk => exact h.1 line hmem

theorem IsMarkedMerge.unionLines_ne_nil {chunks : List MarkedChunk} {last : Bytes}
    (h : IsMarkedMerge chunks last) : chunks.flatMap (·.unionLines) ≠ [] := by
  obtain ⟨hunk, hmem⟩ := h.exists_conflict
  obtain ⟨line, hline⟩ : ∃ line, line ∈ hunk.unionLines := by
    rcases (h.wellFormed _ hmem).2 with hne | hne
    · obtain ⟨line, hline⟩ := List.exists_mem_of_ne_nil _ hne
      exact ⟨line, MarkedHunk.mem_unionLines.mpr (.inl hline)⟩
    · obtain ⟨line, hline⟩ := List.exists_mem_of_ne_nil _ hne
      exact ⟨line, MarkedHunk.mem_unionLines.mpr (.inr hline)⟩
  exact List.ne_nil_of_mem (List.mem_flatMap.mpr ⟨_, hmem, hline⟩)

/-- The result is the merge with the union of the sides in place of its hunks if the markers stand
out. If no line of the versions is a marker with its label, it is so only then. -/
theorem unionDedupMerge_iff (repo : Repo) (base ours theirs : Bytes)
    (oursLabel baseLabel theirsLabel : String)
    (hlabels : ∀ label ∈ [oursLabel, baseLabel, theirsLabel], 0x0A ∉ label.toUTF8.toList) :
    (∀ merged, mergeTextWithStyle repo base ours theirs oursLabel baseLabel theirsLabel .diff3 =
      .clean merged →
        unionDedupMerge repo base ours theirs oursLabel baseLabel theirsLabel = merged) ∧
    ∀ chunks last, mergeTextWithStyle repo base ours theirs oursLabel baseLabel theirsLabel .diff3 =
        .conflict (markedText oursLabel baseLabel theirsLabel chunks last) →
      IsMarkedMerge chunks last →
      (MarkersStandOut oursLabel baseLabel theirsLabel chunks last →
        unionDedupMerge repo base ours theirs oursLabel baseLabel theirsLabel =
          unionText chunks last) ∧
      (NoMarkerLine oursLabel baseLabel theirsLabel (chunks.flatMap (·.content) ++ [last]) →
        unionDedupMerge repo base ours theirs oursLabel baseLabel theirsLabel =
          unionText chunks last →
        MarkersStandOut oursLabel baseLabel theirsLabel chunks last) := by
  refine ⟨fun merged hmerge => by rw [unionDedupMerge, hmerge], ?_⟩
  intro chunks last hmerge h
  have hmarked : ∀ line ∈ chunks.flatMap (·.markedLines oursLabel baseLabel theirsLabel),
      0x0A ∉ line := by
    intro line hline
    obtain ⟨c, hc, hline⟩ := List.mem_flatMap.mp hline
    exact (h.wellFormed c hc).markedLines hlabels line hline
  have hunion : ∀ line ∈ chunks.flatMap (·.unionLines), 0x0A ∉ line := by
    intro line hline
    obtain ⟨c, hc, hline⟩ := List.mem_flatMap.mp hline
    exact (h.wellFormed c hc).unionLines line hline
  have hne := h.unionLines_ne_nil
  have hne' : chunks.flatMap (·.markedLines oursLabel baseLabel theirsLabel) ≠ [] := by
    obtain ⟨hunk, hmem⟩ := h.exists_conflict
    exact List.ne_nil_of_mem (List.mem_flatMap.mpr ⟨_, hmem, List.mem_cons_self⟩)
  rw [unionDedupMerge, hmerge]
  dsimp only
  rw [markedText, dedupConflictMarkers_unlines (.inl hne') hmarked h.last, unionText,
    ← intercalate_withLast (.inl hne), List.append_left_inj]
  have hlast : (if last = [] then [] else [last]) ⊆ [last] := by
    split_ifs
    · exact List.nil_subset _
    · exact List.Subset.refl _
  constructor
  · rintro ⟨hchunks, hmarker⟩
    rw [withLast, dedupLines_markedLines hchunks, dedupLines_of_not_mem
      (fun hmem => hmarker (List.mem_singleton.mp (hlast hmem)).symm), withLast]
  · intro hcontent heq
    have hnone : NoMarkerLine oursLabel baseLabel theirsLabel
        (chunks.flatMap (·.content) ++ if last = [] then [] else [last]) :=
      hcontent.mono (List.append_subset.mpr ⟨List.subset_append_left _ _,
        List.Subset.trans hlast (List.subset_append_right _ _)⟩)
    refine ⟨?_, fun hmem => hcontent.plain List.mem_cons_self ?_⟩
    · rcases eq_or_ne (dedupLines oursLabel baseLabel theirsLabel (withLast
        (chunks.flatMap (·.markedLines oursLabel baseLabel theirsLabel)) last)) [] with hnil | hsome
      · -- The result has as many lines as the unions at least.
        rw [withLast] at hnil
        have hreturn := no_return_of_dedupLines (hcontent.mono (List.subset_append_left _ _))
          fun marker _ => by rw [hnil]; exact List.not_mem_nil
        have hle := (standsOut_of_length hnone hreturn).1
        rw [hnil, List.length_nil, Nat.le_zero, List.length_eq_zero_iff] at hle
        exact absurd (List.append_eq_nil_iff.mp hle).1 hne
      · have hsplit := List.splitOn_intercalate 0x0A (fun line hline =>
          forall_mem_withLast hmarked h.last line (dedupLines_subset _ hline)) hsome
        rw [heq, List.splitOn_intercalate 0x0A (forall_mem_withLast hunion h.last)
          (withLast_ne_nil (.inl hne))] at hsplit
        exact standsOut_of_dedupLines hnone hsplit.symm
    · rw [← hmem]
      exact List.mem_append_right _ (List.mem_singleton_self last)

end Dedup

section Samples

/-- A text driver that finds one conflict. -/
def markedRepo (hunk : MarkedHunk) : Repo :=
  { sampleRepo with
    textDriver := fun labels _ _ _ _ =>
      (.conflict, markedText labels.current labels.ancestor labels.other [.conflict hunk] []) }

/-- Both sides change a line. -/
private def changedLine : MarkedHunk :=
  ⟨["one".toUTF8.toList, "two".toUTF8.toList], ["base".toUTF8.toList],
    ["two".toUTF8.toList, "three".toUTF8.toList], false, false, false⟩

theorem unionDedupMerge_iff_changedLine :
    unionDedupMerge (markedRepo changedLine) "base\n".toUTF8.toList "one\ntwo\n".toUTF8.toList
      "two\nthree\n".toUTF8.toList "epoch" "base" "alice" = unionText [.conflict changedLine] [] ∧
    unionText [.conflict changedLine] [] = "one\ntwo\nthree\n".toUTF8.toList := by
  refine ⟨(((unionDedupMerge_iff (markedRepo changedLine) _ _ _ "epoch" "base" "alice"
    (by decide +kernel)).2 [.conflict changedLine] [] rfl
      ⟨?_, ⟨changedLine, List.mem_singleton_self _⟩, List.not_mem_nil⟩).1 ⟨?_, ?_⟩),
    by decide +kernel⟩
  · rintro c hc
    rw [List.mem_singleton.mp hc]
    exact ⟨by decide +kernel, .inl (List.cons_ne_nil _ _)⟩
  · rintro c hc
    rw [List.mem_singleton.mp hc]
    exact ⟨⟨rfl, rfl, rfl⟩, by decide +kernel, by decide +kernel, by decide +kernel⟩
  · decide +kernel

/-- The base has a line of equal signs, as below a title. -/
private def underlined : MarkedHunk :=
  ⟨["new".toUTF8.toList], ["title".toUTF8.toList, splitMarker, "text".toUTF8.toList],
    ["other".toUTF8.toList], false, false, false⟩

/-- The lines end in a carriage return. -/
private def returned : MarkedHunk :=
  ⟨["one\r".toUTF8.toList], ["base\r".toUTF8.toList], ["two\r".toUTF8.toList], true, true, true⟩

/-- Lines of the base and a separator come back, and markers with a carriage return stay. -/
theorem unionDedupMerge_fails :
    (unionDedupMerge (markedRepo underlined) "title\n=======\ntext\n".toUTF8.toList
        "new\n".toUTF8.toList "other\n".toUTF8.toList "epoch" "base" "alice" =
          "new\ntext\n=======\nother\n".toUTF8.toList ∧
      unionText [.conflict underlined] [] = "new\nother\n".toUTF8.toList) ∧
    unionDedupMerge (markedRepo returned) "base\r\n".toUTF8.toList "one\r\n".toUTF8.toList
        "two\r\n".toUTF8.toList "epoch" "base" "alice" =
          markedText "epoch" "base" "alice" [.conflict returned] [] ∧
      unionText [.conflict returned] [] = "one\r\ntwo\r\n".toUTF8.toList := by
  decide +kernel

end Samples

end Maw
