import Mathlib.Data.List.Forall2
import Maw.Merge.LossyText

/-!
# The atoms of a merge with conflict markers

A merge in conflict is a list of chunks: lines on which the versions agree or only one of them
differs from the base, and hunks in conflict. Its rendering with markers is parsed into one atom
for each hunk. The lines of the base are counted on the lines that are shown, so that the region of
an atom is that of its hunk if the chunks in front of it show as many lines as they have in the
base.

## Main definitions

* `Chunk`, `render` — a merge, and its text with markers.
* `IsAtomOf` — the atom of a hunk at a line of the base.
* `InStep` — the chunks in front of each hunk show as many lines as they have in the base.

## Main results

* `parseDiff3Atoms_render` — the atoms of a rendering.
* `parseDiff3Atoms_render_iff` — when these are the atoms of the hunks.
-/

open Lines

namespace Maw

/-! ### Merges with markers -/

def oursMarker : Bytes := "<<<<<<<".toUTF8.toList

def baseMarker : Bytes := "|||||||".toUTF8.toList

def splitMarker : Bytes := "=======".toUTF8.toList

def theirsMarker : Bytes := ">>>>>>>".toUTF8.toList

/-- A hunk in conflict. With `cr` its markers have a carriage return at their end, as `git` writes
them into texts with such line ends. -/
structure Hunk where
  ours : List Bytes
  base : List Bytes
  theirs : List Bytes
  cr : Bool

/-- Lines of a merge: those of the base and those that are shown for them, or a hunk. -/
inductive Chunk
  | clean (base merged : List Bytes)
  | conflict (hunk : Hunk)

/-- What stands behind the markers. -/
structure MarkerLabels where
  ours : Bytes
  base : Bytes
  theirs : Bytes

namespace Hunk

def lineEnd (h : Hunk) : Bytes := if h.cr then [0x0D] else []

def lines (labels : MarkerLabels) (h : Hunk) : List Bytes :=
  (oursMarker ++ (labels.ours ++ h.lineEnd)) :: (h.ours ++
    (baseMarker ++ (labels.base ++ h.lineEnd)) :: (h.base ++
      (splitMarker ++ h.lineEnd) :: (h.theirs ++
        [theirsMarker ++ (labels.theirs ++ h.lineEnd)])))

/-- All lines of the versions. -/
def content (h : Hunk) : List Bytes := h.ours ++ (h.base ++ h.theirs)

end Hunk

namespace Chunk

def lines (labels : MarkerLabels) : Chunk → List Bytes
  | clean _ merged => merged
  | conflict hunk => hunk.lines labels

/-- The lines of the versions that are shown. -/
def content : Chunk → List Bytes
  | clean _ merged => merged
  | conflict hunk => hunk.content

end Chunk

/-- The text of a merge; its last line may have no line feed behind it. -/
def render (labels : MarkerLabels) (chunks : List Chunk) (last : Bytes) : Bytes :=
  unlines 0x0A (chunks.flatMap (·.lines labels)) ++ last

/-- A line of a version, which begins with no marker. -/
def IsContentLine (line : Bytes) : Prop :=
  0x0A ∉ line ∧ ∀ marker ∈ [oursMarker, baseMarker, splitMarker, theirsMarker], ¬ marker <+: line

/-- Labels are of one line. -/
def MarkerLabels.OneLine (labels : MarkerLabels) : Prop :=
  0x0A ∉ labels.ours ∧ 0x0A ∉ labels.base ∧ 0x0A ∉ labels.theirs

/-- The text of lines. -/
def lineTexts (lines : List Bytes) : String := AtomParser.joinLines (lines.map fromUtf8Lossy)

/-- The hunks with the numbers of their first lines in the base. -/
def hunksAt (line : ℕ) : List Chunk → List (ℕ × Hunk)
  | [] => []
  | .clean base _ :: chunks => hunksAt (line + base.length) chunks
  | .conflict hunk :: chunks => (line, hunk) :: hunksAt (line + hunk.base.length) chunks

/-- The atom of a hunk: the lines of the hunk in the base, and the texts of the two sides. -/
def IsAtomOf (wsOurs wsTheirs : String) (at' : ℕ × Hunk) (atom : OverlapAtom) : Prop :=
  (∃ start stop, atom.baseRegion = .lines start stop ∧ start.toNat = at'.1 ∧
    stop.toNat = at'.1 + at'.2.base.length) ∧
    atom.edits.map RegionEdit.toAtomEdit =
      [⟨wsOurs, lineTexts at'.2.ours⟩, ⟨wsTheirs, lineTexts at'.2.theirs⟩]

/-- In front of each hunk as many lines are shown as there are in the base, and numbers of lines
fit in 32 bits; no line of a side ends in a carriage return. The numbers are those of the next line
of the base and of the next one that is shown. -/
def InStep (line shown : ℕ) : List Chunk → Prop
  | [] => True
  | .clean base merged :: chunks => InStep (line + base.length) (shown + merged.length) chunks
  | .conflict hunk :: chunks =>
    (shown % 2 ^ 32 = line % 2 ^ 32 ∧ line + hunk.base.length < 2 ^ 32) ∧
      (∀ l ∈ hunk.ours ++ hunk.theirs, l.getLast? ≠ some 0x0D) ∧
        InStep (line + hunk.base.length) (shown + hunk.base.length) chunks

/-! ### Lines as the parser sees them -/

/-- What a line begins with. -/
theorem isPrefixOf_seen {line marker : Bytes} (hascii : IsAscii marker)
    (hlast : (marker.map asciiChar).getLast? ≠ some '\r') :
    (marker.map asciiChar).isPrefixOf (seen line) = true ↔ marker <+: line := by
  rw [List.isPrefixOf_iff_prefix, seen, prefix_chopReturn_iff hlast,
    prefix_fromUtf8Lossy_iff hascii]

private theorem isPrefixOf_seen_of_eq {line marker : Bytes} {text : List Char}
    (htext : marker.map asciiChar = text) (hascii : IsAscii marker)
    (hlast : text.getLast? ≠ some '\r') : text.isPrefixOf (seen line) = true ↔ marker <+: line := by
  subst htext
  exact isPrefixOf_seen hascii hlast

theorem oursMarker_seen {line : Bytes} :
    "<<<<<<<".toList.isPrefixOf (seen line) = true ↔ oursMarker <+: line :=
  isPrefixOf_seen_of_eq (by decide +kernel) (by unfold IsAscii; decide +kernel) (by decide)

theorem baseMarker_seen {line : Bytes} :
    "|||||||".toList.isPrefixOf (seen line) = true ↔ baseMarker <+: line :=
  isPrefixOf_seen_of_eq (by decide +kernel) (by unfold IsAscii; decide +kernel) (by decide)

theorem splitMarker_seen {line : Bytes} :
    "=======".toList.isPrefixOf (seen line) = true ↔ splitMarker <+: line :=
  isPrefixOf_seen_of_eq (by decide +kernel) (by unfold IsAscii; decide +kernel) (by decide)

theorem theirsMarker_seen {line : Bytes} :
    ">>>>>>>".toList.isPrefixOf (seen line) = true ↔ theirsMarker <+: line :=
  isPrefixOf_seen_of_eq (by decide +kernel) (by unfold IsAscii; decide +kernel) (by decide)

/-- The line between base and theirs. -/
theorem seen_splitMarker (h : Hunk) : seen (splitMarker ++ h.lineEnd) = "=======".toList := by
  have hascii : ∀ cr : Bool, IsAscii (splitMarker ++ if cr then [0x0D] else []) := by
    unfold IsAscii
    decide +kernel
  have hchop : ∀ cr : Bool, chopReturn ((splitMarker ++ if cr then [0x0D] else []).map asciiChar) =
      "=======".toList := by
    decide +kernel
  rw [seen, Hunk.lineEnd, fromUtf8Lossy_of_isAscii (hascii h.cr), hchop]

/-- A line that begins with no marker. -/
structure NoMarker (line : List Char) : Prop where
  ours : "<<<<<<<".toList.isPrefixOf line = false
  base : "|||||||".toList.isPrefixOf line = false
  split : line ≠ "=======".toList
  theirs : ">>>>>>>".toList.isPrefixOf line = false

theorem chopReturn_prefix_line (line : List Char) : chopReturn line <+: line := by
  rw [chopReturn]
  split_ifs
  · exact List.dropLast_prefix line
  · exact List.prefix_rfl

theorem IsContentLine.noMarker {line : Bytes} (h : IsContentLine line) : NoMarker (seen line) := by
  obtain ⟨hours, hbase, hsplit, htheirs⟩ : ¬ oursMarker <+: line ∧ ¬ baseMarker <+: line ∧
      ¬ splitMarker <+: line ∧ ¬ theirsMarker <+: line := by
    simpa using h.2
  refine ⟨Bool.eq_false_iff.mpr (oursMarker_seen.not.mpr hours),
    Bool.eq_false_iff.mpr (baseMarker_seen.not.mpr hbase), fun heq => ?_,
    Bool.eq_false_iff.mpr (theirsMarker_seen.not.mpr htheirs)⟩
  refine splitMarker_seen.not.mpr hsplit ?_
  rw [heq]
  exact List.isPrefixOf_iff_prefix.mpr List.prefix_rfl

/-! ### Runs of the parser -/

namespace AtomParser

variable (wsOurs wsTheirs : String)

theorem step_of_noMarker {line : List Char} (h : NoMarker line) (s : AtomParser) :
    s.step wsOurs wsTheirs line = s.collect line := by
  obtain ⟨hours, hbase, hsplit, htheirs⟩ := h
  rw [step, if_neg (by rw [hours]; exact Bool.false_ne_true),
    if_neg (by rw [hbase, Bool.false_and]; exact Bool.false_ne_true),
    if_neg (by rw [decide_eq_false hsplit, Bool.false_and]; exact Bool.false_ne_true),
    if_neg (by rw [htheirs, Bool.false_and]; exact Bool.false_ne_true)]

variable {b start : UInt32} {ours base theirs : List (List Char)} {atoms : List OverlapAtom}
  {line : List Char} {lines : List (List Char)}

/-! What each marker does. -/

theorem step_ours (h : "<<<<<<<".toList.isPrefixOf line = true) :
    step wsOurs wsTheirs ⟨.context, b, start, ours, base, theirs, atoms⟩ line =
      ⟨.ours, b, b, [], [], [], atoms⟩ := by
  rw [step, if_pos h]

theorem step_base (hours : "<<<<<<<".toList.isPrefixOf line = false)
    (h : "|||||||".toList.isPrefixOf line = true) :
    step wsOurs wsTheirs ⟨.ours, b, start, ours, base, theirs, atoms⟩ line =
      ⟨.base, b, start, ours, base, theirs, atoms⟩ := by
  rw [step, if_neg (by rw [hours]; exact Bool.false_ne_true), if_pos (by rw [h]; rfl)]

theorem step_split : step wsOurs wsTheirs ⟨.base, b, start, ours, base, theirs, atoms⟩
      "=======".toList = ⟨.theirs, b, start, ours, base, theirs, atoms⟩ := by
  rw [step, if_neg (by decide), if_neg (by simp), if_pos (by simp)]

theorem step_theirs (hours : "<<<<<<<".toList.isPrefixOf line = false)
    (hbase : "|||||||".toList.isPrefixOf line = false) (hsplit : line ≠ "=======".toList)
    (h : ">>>>>>>".toList.isPrefixOf line = true) :
    step wsOurs wsTheirs ⟨.theirs, b, start, ours, base, theirs, atoms⟩ line =
      ⟨.context, b + usizeToU32 base.length, start, ours, base, theirs,
        atoms ++ [atom wsOurs wsTheirs ⟨.theirs, b, start, ours, base, theirs, atoms⟩]⟩ := by
  rw [step, if_neg (by rw [hours]; exact Bool.false_ne_true),
    if_neg (by rw [hbase, Bool.false_and]; exact Bool.false_ne_true),
    if_neg (by rw [decide_eq_false hsplit, Bool.false_and]; exact Bool.false_ne_true),
    if_pos (by rw [h]; rfl)]

/-! What lines of a version do. -/

theorem foldl_context (h : ∀ line ∈ lines, NoMarker line) :
    lines.foldl (step wsOurs wsTheirs) ⟨.context, b, start, ours, base, theirs, atoms⟩ =
      ⟨.context, b + UInt32.ofNat lines.length, start, ours, base, theirs, atoms⟩ := by
  induction lines generalizing b with
  | nil => simp
  | cons line lines ih =>
    obtain ⟨hline, hlines⟩ := List.forall_mem_cons.mp h
    have hlength : UInt32.ofNat (line :: lines).length = 1 + UInt32.ofNat lines.length := by
      rw [List.length_cons, Nat.add_comm, UInt32.ofNat_add]
      rfl
    rw [List.foldl_cons, step_of_noMarker _ _ hline, collect, ih hlines, hlength, UInt32.add_assoc]

theorem foldl_ours (h : ∀ line ∈ lines, NoMarker line) :
    lines.foldl (step wsOurs wsTheirs) ⟨.ours, b, start, ours, base, theirs, atoms⟩ =
      ⟨.ours, b, start, ours ++ lines, base, theirs, atoms⟩ := by
  induction lines generalizing ours with
  | nil => simp
  | cons line lines ih =>
    obtain ⟨hline, hlines⟩ := List.forall_mem_cons.mp h
    rw [List.foldl_cons, step_of_noMarker _ _ hline, collect, ih hlines, List.append_assoc,
      List.singleton_append]

theorem foldl_base (h : ∀ line ∈ lines, NoMarker line) :
    lines.foldl (step wsOurs wsTheirs) ⟨.base, b, start, ours, base, theirs, atoms⟩ =
      ⟨.base, b, start, ours, base ++ lines, theirs, atoms⟩ := by
  induction lines generalizing base with
  | nil => simp
  | cons line lines ih =>
    obtain ⟨hline, hlines⟩ := List.forall_mem_cons.mp h
    rw [List.foldl_cons, step_of_noMarker _ _ hline, collect, ih hlines, List.append_assoc,
      List.singleton_append]

theorem foldl_theirs (h : ∀ line ∈ lines, NoMarker line) :
    lines.foldl (step wsOurs wsTheirs) ⟨.theirs, b, start, ours, base, theirs, atoms⟩ =
      ⟨.theirs, b, start, ours, base, theirs ++ lines, atoms⟩ := by
  induction lines generalizing theirs with
  | nil => simp
  | cons line lines ih =>
    obtain ⟨hline, hlines⟩ := List.forall_mem_cons.mp h
    rw [List.foldl_cons, step_of_noMarker _ _ hline, collect, ih hlines, List.append_assoc,
      List.singleton_append]

end AtomParser

/-! ### The atoms of a rendering -/

section Rendering

variable (wsOurs wsTheirs : String)

/-- The atom of a hunk in front of which the parser has counted to a line. -/
def hunkAtom (b : UInt32) (hunk : Hunk) : OverlapAtom :=
  AtomParser.atom wsOurs wsTheirs
    ⟨.theirs, b, b, hunk.ours.map seen, hunk.base.map seen, hunk.theirs.map seen, []⟩

/-- The atoms of chunks in front of which the parser has counted to a line. -/
def chunkAtoms (b : UInt32) : List Chunk → List OverlapAtom
  | [] => []
  | .clean _ merged :: chunks => chunkAtoms (b + UInt32.ofNat merged.length) chunks
  | .conflict hunk :: chunks =>
    hunkAtom wsOurs wsTheirs b hunk ::
      chunkAtoms (b + AtomParser.usizeToU32 hunk.base.length) chunks

theorem noMarker_of_mem {lines : List Bytes} (h : ∀ line ∈ lines, IsContentLine line) :
    ∀ line ∈ lines.map seen, NoMarker line := by
  intro line hline
  obtain ⟨bytes, hbytes, rfl⟩ := List.mem_map.mp hline
  exact (h bytes hbytes).noMarker

/-- One marker is not the beginning of a line that begins with another one. -/
theorem not_prefix_append {marker other : Bytes} (rest : Bytes) (h : marker.head? ≠ other.head?)
    (hmarker : marker ≠ []) (hother : other ≠ []) : ¬ marker <+: other ++ rest := by
  rintro ⟨more, hmore⟩
  rcases marker with _ | ⟨b, marker⟩
  · exact hmarker rfl
  rcases other with _ | ⟨c, other⟩
  · exact hother rfl
  exact h (congrArg some (List.cons.inj hmore).1)

/-- A hunk gives one atom. -/
theorem foldl_hunk (labels : MarkerLabels) {hunk : Hunk}
    (h : ∀ line ∈ hunk.content, IsContentLine line) {s : AtomParser} (hs : s.state = .context) :
    let s' := ((hunk.lines labels).map seen).foldl (AtomParser.step wsOurs wsTheirs) s
    s'.state = .context ∧ s'.baseLine = s.baseLine + AtomParser.usizeToU32 hunk.base.length ∧
      s'.atoms = s.atoms ++ [hunkAtom wsOurs wsTheirs s.baseLine hunk] := by
  obtain ⟨state, b, start, ours, base, theirs, atoms⟩ := s
  obtain rfl : state = .context := hs
  have hours := noMarker_of_mem fun line hline => h line (List.mem_append_left _ hline)
  have hbase := noMarker_of_mem fun line hline =>
    h line (List.mem_append_right _ (List.mem_append_left _ hline))
  have htheirs := noMarker_of_mem fun line hline =>
    h line (List.mem_append_right _ (List.mem_append_right _ hline))
  have hfirst : ∀ other ∈ [baseMarker, theirsMarker], ∀ rest, ¬ oursMarker <+: other ++ rest := by
    have hheads : ∀ other ∈ [baseMarker, theirsMarker], oursMarker.head? ≠ other.head? ∧
        oursMarker ≠ [] ∧ other ≠ [] := by decide +kernel
    intro other hother rest
    obtain ⟨hhead, hne, hne'⟩ := hheads other hother
    exact not_prefix_append rest hhead hne hne'
  have hlast : ∀ marker ∈ [baseMarker, splitMarker], ∀ rest, ¬ marker <+: theirsMarker ++ rest := by
    have hheads : ∀ marker ∈ [baseMarker, splitMarker], marker.head? ≠ theirsMarker.head? ∧
        marker ≠ [] ∧ theirsMarker ≠ [] := by decide +kernel
    intro marker hmarker rest
    obtain ⟨hhead, hne, hne'⟩ := hheads marker hmarker
    exact not_prefix_append rest hhead hne hne'
  simp only [Hunk.lines, List.map_cons, List.map_append, List.map_nil, List.foldl_cons,
    List.foldl_append, List.foldl_nil]
  rw [AtomParser.step_ours _ _ (oursMarker_seen.mpr (List.prefix_append _ _)),
    AtomParser.foldl_ours _ _ hours, List.nil_append,
    AtomParser.step_base _ _ _ (baseMarker_seen.mpr (List.prefix_append _ _)),
    AtomParser.foldl_base _ _ hbase, List.nil_append, seen_splitMarker, AtomParser.step_split,
    AtomParser.foldl_theirs _ _ htheirs, List.nil_append,
    AtomParser.step_theirs _ _ _ _ _ (theirsMarker_seen.mpr (List.prefix_append _ _))]
  · rw [List.length_map]
    exact ⟨rfl, rfl, rfl⟩
  · exact Bool.eq_false_iff.mpr (oursMarker_seen.not.mpr (hfirst _ (by simp) _))
  · exact Bool.eq_false_iff.mpr (baseMarker_seen.not.mpr (hlast _ (by simp) _))
  · intro heq
    refine hlast splitMarker (by simp) (labels.theirs ++ hunk.lineEnd) (splitMarker_seen.mp ?_)
    rw [heq]
    exact List.isPrefixOf_iff_prefix.mpr List.prefix_rfl
  · exact Bool.eq_false_iff.mpr (oursMarker_seen.not.mpr (hfirst _ (by simp) _))

/-- The chunks give their atoms. -/
theorem foldl_chunks (labels : MarkerLabels) {chunks : List Chunk}
    (h : ∀ chunk ∈ chunks, ∀ line ∈ chunk.content, IsContentLine line) {s : AtomParser}
    (hs : s.state = .context) :
    let s' := ((chunks.flatMap (·.lines labels)).map seen).foldl
      (AtomParser.step wsOurs wsTheirs) s
    s'.state = .context ∧
      s'.atoms = s.atoms ++ chunkAtoms wsOurs wsTheirs s.baseLine chunks := by
  induction chunks generalizing s with
  | nil => exact ⟨hs, by rw [chunkAtoms, List.append_nil]; rfl⟩
  | cons chunk chunks ih =>
    obtain ⟨hchunk, hchunks⟩ := List.forall_mem_cons.mp h
    rw [List.flatMap_cons, List.map_append, List.foldl_append]
    cases chunk with
    | clean baseLines merged =>
      obtain ⟨state, b, start, ours, base, theirs, atoms⟩ := s
      obtain rfl : state = .context := hs
      have hmerged := noMarker_of_mem (show ∀ line ∈ merged, IsContentLine line from hchunk)
      rw [Chunk.lines, AtomParser.foldl_context _ _ hmerged, List.length_map, chunkAtoms]
      exact ih hchunks rfl
    | conflict hunk =>
      obtain ⟨hstate, hline, hatoms⟩ := foldl_hunk wsOurs wsTheirs labels hchunk hs
      obtain ⟨hstate', hatoms'⟩ := ih hchunks hstate
      refine ⟨hstate', hatoms'.trans ?_⟩
      rw [hline, hatoms, chunkAtoms, List.append_assoc, List.singleton_append]

theorem IsContentLine.lf_not_mem {line : Bytes} (h : IsContentLine line) : 0x0A ∉ line := h.1

/-- No line of a chunk has a line feed in it. -/
theorem lf_not_mem_lines {labels : MarkerLabels} (hlabels : labels.OneLine) {chunk : Chunk}
    (h : ∀ line ∈ chunk.content, IsContentLine line) :
    ∀ line ∈ chunk.lines labels, 0x0A ∉ line := by
  cases chunk with
  | clean base merged => exact fun line hline => (h line hline).lf_not_mem
  | conflict hunk =>
    have hmarkers : ∀ marker ∈ [oursMarker, baseMarker, splitMarker, theirsMarker],
        0x0A ∉ marker := by decide +kernel
    have hend : 0x0A ∉ hunk.lineEnd := by
      rw [Hunk.lineEnd]
      split_ifs <;> decide
    have hcontent (line : Bytes) (hline : line ∈ hunk.content) : 0x0A ∉ line :=
      (h line hline).lf_not_mem
    simp only [Hunk.content, List.mem_append] at hcontent
    have hmarker (marker : Bytes) (hmem : marker ∈ [oursMarker, baseMarker, splitMarker,
        theirsMarker]) {label : Bytes} (hlabel : 0x0A ∉ label) : 0x0A ∉ marker ++ label :=
      fun hlf => (List.mem_append.mp hlf).elim (hmarkers marker hmem) hlabel
    have hends {label : Bytes} (hlabel : 0x0A ∉ label) : 0x0A ∉ label ++ hunk.lineEnd :=
      fun hlf => (List.mem_append.mp hlf).elim hlabel hend
    simp only [Chunk.lines, Hunk.lines, List.forall_mem_cons, List.forall_mem_append]
    exact ⟨hmarker _ (by simp) (hends hlabels.1), fun line hline => hcontent line (.inl hline),
      hmarker _ (by simp) (hends hlabels.2.1), fun line hline => hcontent line (.inr (.inl hline)),
      hmarker _ (by simp) hend, fun line hline => hcontent line (.inr (.inr hline)),
      hmarker _ (by simp) (hends hlabels.2.2), nofun⟩

/-- Outside of hunks no line makes an atom. -/
theorem AtomParser.atoms_step_of_context {s : AtomParser} (h : s.state = .context)
    (line : List Char) : (s.step wsOurs wsTheirs line).atoms = s.atoms := by
  rw [step, collect, h]
  split_ifs <;> simp_all

/-- The atoms of the rendering of chunks. -/
theorem parseDiff3Atoms_render {labels : MarkerLabels} (hlabels : labels.OneLine)
    {chunks : List Chunk} (h : ∀ chunk ∈ chunks, ∀ line ∈ chunk.content, IsContentLine line)
    {last : Bytes} (hlast : 0x0A ∉ last) :
    parseDiff3Atoms (render labels chunks last) wsOurs wsTheirs =
      chunkAtoms wsOurs wsTheirs 1 chunks := by
  have hlines : ∀ line ∈ chunks.flatMap (·.lines labels), 0x0A ∉ line := by
    intro line hline
    obtain ⟨chunk, hchunk, hline⟩ := List.mem_flatMap.mp hline
    exact lf_not_mem_lines hlabels (h chunk hchunk) line hline
  obtain ⟨hstate, hatoms⟩ := foldl_chunks wsOurs wsTheirs labels h
    (show ({} : AtomParser).state = .context from rfl)
  obtain ⟨line, hline⟩ := textLines_of_not_mem hlast
  rw [parseDiff3Atoms, render, textLines_unlines_append hlines, List.foldl_append, hline]
  rw [List.nil_append] at hatoms
  split_ifs
  · exact hatoms
  · rw [List.foldl_cons, List.foldl_nil, AtomParser.atoms_step_of_context _ _ hstate]
    exact hatoms

/-! ### Exactness -/

/-- Lines can be read off their joined text, but for whether there is any. -/
theorem eq_of_joinLines {lines lines' : List (List Char)} (hlength : lines.length = lines'.length)
    (h : ∀ line ∈ lines, '\n' ∉ line) (h' : ∀ line ∈ lines', '\n' ∉ line)
    (heq : AtomParser.joinLines lines = AtomParser.joinLines lines') : lines = lines' := by
  have htext (ls : List (List Char)) :
      (AtomParser.joinLines ls).toList = ['\n'].intercalate ls := by
    rw [AtomParser.joinLines]
    induction ls with
    | nil => rfl
    | cons l ls ih =>
      rcases ls with _ | ⟨m, ls⟩
      · simp
      · rw [List.map_cons, List.map_cons, String.intercalate_cons_cons, String.toList_append,
          String.toList_append, ← List.map_cons, ih, String.toList_ofList,
          List.intercalate_cons_of_ne_nil (List.cons_ne_nil _ _)]
        simp
  have hlist := congrArg String.toList heq
  rw [htext, htext] at hlist
  rcases eq_or_ne lines [] with rfl | hne
  · exact (List.length_eq_zero_iff.mp hlength.symm).symm
  · have hne' : lines' ≠ [] := by
      rintro rfl
      exact hne (List.length_eq_zero_iff.mp hlength)
    rw [← List.splitOn_intercalate '\n' h hne, hlist, List.splitOn_intercalate '\n' h' hne']

theorem chopReturn_eq_iff {line : List Char} :
    chopReturn line = line ↔ line.getLast? ≠ some '\r' := by
  rw [chopReturn]
  split_ifs with h
  · obtain ⟨front, rfl⟩ := List.getLast?_eq_some_iff.mp h
    simp
  · simp [h]

/-- The parser has the text of lines exactly if none ends in a carriage return. -/
theorem joinLines_seen_iff {lines : List Bytes} (h : ∀ line ∈ lines, 0x0A ∉ line) :
    AtomParser.joinLines (lines.map seen) = lineTexts lines ↔
      ∀ line ∈ lines, line.getLast? ≠ some 0x0D := by
  have hlf (line : Bytes) (hline : line ∈ lines) : '\n' ∉ fromUtf8Lossy line :=
    fun hmem => h line hline (mem_of_mem_fromUtf8Lossy (by decide) (by decide) hmem)
  have hreturn (line : Bytes) : seen line = fromUtf8Lossy line ↔ line.getLast? ≠ some 0x0D := by
    rw [seen, chopReturn_eq_iff]
    exact (getLast?_fromUtf8Lossy_iff (b := 0x0D) (by decide) (by decide)).not
  rw [lineTexts]
  constructor
  · intro heq
    have hmaps := eq_of_joinLines (by rw [List.length_map, List.length_map]) ?_ ?_ heq
    · intro line hline
      exact (hreturn line).mp (List.map_inj_left.mp hmaps line hline)
    · intro text htext
      obtain ⟨line, hline, rfl⟩ := List.mem_map.mp htext
      exact fun hmem => hlf line hline ((chopReturn_prefix_line _).subset hmem)
    · intro text htext
      obtain ⟨line, hline, rfl⟩ := List.mem_map.mp htext
      exact hlf line hline
  · intro hall
    rw [List.map_congr_left fun line hline => (hreturn line).mpr (hall line hline)]

variable {wsOurs wsTheirs} in
/-- The atom of a hunk is the one of its lines exactly if the parser has counted to the first of
them, and no line ends in a carriage return. -/
theorem isAtomOf_hunkAtom_iff {line shown : ℕ} {hunk : Hunk}
    (h : ∀ l ∈ hunk.content, IsContentLine l) :
    IsAtomOf wsOurs wsTheirs (line, hunk)
        (hunkAtom wsOurs wsTheirs (UInt32.ofNat shown) hunk) ↔
      (shown % 2 ^ 32 = line % 2 ^ 32 ∧ line + hunk.base.length < 2 ^ 32) ∧
        ∀ l ∈ hunk.ours ++ hunk.theirs, l.getLast? ≠ some 0x0D := by
  have hregion : (∃ start stop,
      (hunkAtom wsOurs wsTheirs (UInt32.ofNat shown) hunk).baseRegion = .lines start stop ∧
        start.toNat = line ∧ stop.toNat = line + hunk.base.length) ↔
      shown % 2 ^ 32 = line % 2 ^ 32 ∧ line + hunk.base.length < 2 ^ 32 := by
    have hatom : (hunkAtom wsOurs wsTheirs (UInt32.ofNat shown) hunk).baseRegion =
        .lines (UInt32.ofNat shown)
          (UInt32.ofNat shown + AtomParser.usizeToU32 hunk.base.length) := by
      rw [hunkAtom, AtomParser.atom, List.length_map]
    rw [hatom]
    constructor
    · rintro ⟨start, stop, heq, hstart, hstop⟩
      obtain ⟨rfl, rfl⟩ := Region.lines.inj heq
      have hlt : line + hunk.base.length < 2 ^ 32 := hstop ▸ UInt32.toNat_lt _
      rw [UInt32.toNat_ofNat'] at hstart
      omega
    · rintro ⟨hmod, hlt⟩
      have hlength : (AtomParser.usizeToU32 hunk.base.length).toNat = hunk.base.length := by
        rw [AtomParser.usizeToU32, if_pos (by omega), Nat.toUInt32_eq, UInt32.toNat_ofNat']
        omega
      refine ⟨_, _, rfl, ?_, ?_⟩
      · rw [UInt32.toNat_ofNat']
        omega
      · rw [UInt32.toNat_add, UInt32.toNat_ofNat', hlength]
        omega
  have hedits : (hunkAtom wsOurs wsTheirs (UInt32.ofNat shown) hunk).edits.map
      RegionEdit.toAtomEdit = [⟨wsOurs, lineTexts hunk.ours⟩, ⟨wsTheirs, lineTexts hunk.theirs⟩] ↔
      ∀ l ∈ hunk.ours ++ hunk.theirs, l.getLast? ≠ some 0x0D := by
    have hours := joinLines_seen_iff fun l hl =>
      (h l (List.mem_append_left _ hl)).lf_not_mem
    have htheirs := joinLines_seen_iff fun l hl =>
      (h l (List.mem_append_right _ (List.mem_append_right _ hl))).lf_not_mem
    rw [List.forall_mem_append, ← hours, ← htheirs]
    simp [hunkAtom, AtomParser.atom]
  exact and_congr hregion hedits

variable {wsOurs wsTheirs} in
/-- The parser stays in step with the base, or gives a hunk lines that are not its own. -/
theorem forall₂_chunkAtoms_iff {chunks : List Chunk}
    (h : ∀ chunk ∈ chunks, ∀ line ∈ chunk.content, IsContentLine line) {line shown : ℕ} :
    List.Forall₂ (IsAtomOf wsOurs wsTheirs) (hunksAt line chunks)
        (chunkAtoms wsOurs wsTheirs (UInt32.ofNat shown) chunks) ↔
      InStep line shown chunks := by
  induction chunks generalizing line shown with
  | nil => exact iff_of_true .nil trivial
  | cons chunk chunks ih =>
    obtain ⟨hchunk, hchunks⟩ := List.forall_mem_cons.mp h
    cases chunk with
    | clean base merged =>
      rw [hunksAt, chunkAtoms, InStep, ← UInt32.ofNat_add]
      exact ih hchunks
    | conflict hunk =>
      rw [hunksAt, chunkAtoms, InStep, List.forall₂_cons, isAtomOf_hunkAtom_iff hchunk, and_assoc]
      refine and_congr_right fun hcount => and_congr_right fun _ => ?_
      have hlength : AtomParser.usizeToU32 hunk.base.length = UInt32.ofNat hunk.base.length := by
        rw [AtomParser.usizeToU32, if_pos (by omega), Nat.toUInt32_eq]
      rw [hlength, ← UInt32.ofNat_add]
      exact ih hchunks

/-- Of the rendering of any list of chunks the parser makes one atom for each hunk, in order, with
the texts of its two sides and the lines of the base that it has, exactly if in front of each hunk
as many lines are shown as there are in the base, lines are numbered in 32 bits, and no line of a
side ends in a carriage return. -/
theorem parseDiff3Atoms_render_iff {labels : MarkerLabels} (hlabels : labels.OneLine)
    {chunks : List Chunk} (h : ∀ chunk ∈ chunks, ∀ line ∈ chunk.content, IsContentLine line)
    {last : Bytes} (hlast : IsContentLine last) :
    List.Forall₂ (IsAtomOf wsOurs wsTheirs) (hunksAt 1 chunks)
        (parseDiff3Atoms (render labels chunks last) wsOurs wsTheirs) ↔
      InStep 1 1 chunks := by
  rw [parseDiff3Atoms_render wsOurs wsTheirs hlabels h hlast.lf_not_mem]
  exact forall₂_chunkAtoms_iff h

private def shownLine (text : String) : Bytes := text.toUTF8.toList

private def changedHunk : Hunk :=
  ⟨[shownLine "ours"], [shownLine "base"], [shownLine "theirs"], false⟩

private def changedChunks : List Chunk :=
  [.clean [shownLine "1"] [shownLine "one"], .conflict changedHunk,
    .clean [shownLine "3"] [shownLine "3"], .conflict changedHunk]

private theorem content_changedHunk : ∀ l ∈ changedHunk.content, IsContentLine l := by
  unfold IsContentLine
  decide +kernel

/-- Two hunks behind lines that one side has changed. -/
theorem parseDiff3Atoms_render_iff_changed :
    List.Forall₂ (IsAtomOf "a" "b") [(2, changedHunk), (4, changedHunk)]
      (parseDiff3Atoms (render ⟨[], [], []⟩ changedChunks (shownLine "last")) "a" "b") := by
  have hlabels : MarkerLabels.OneLine ⟨[], [], []⟩ :=
    ⟨List.not_mem_nil, List.not_mem_nil, List.not_mem_nil⟩
  have hlast : IsContentLine (shownLine "last") := by
    unfold IsContentLine
    decide +kernel
  have hcontent : ∀ chunk ∈ changedChunks, ∀ l ∈ chunk.content, IsContentLine l := by
    have hclean : ∀ l ∈ [shownLine "one", shownLine "3"], IsContentLine l := by
      unfold IsContentLine
      decide +kernel
    simp only [changedChunks, List.forall_mem_cons]
    exact ⟨fun l hl => hclean l (by simp_all [Chunk.content]), content_changedHunk,
      fun l hl => hclean l (by simp_all [Chunk.content]), content_changedHunk, nofun⟩
  have hstep : InStep 1 1 changedChunks := by
    have hreturn : ∀ l ∈ changedHunk.ours ++ changedHunk.theirs, l.getLast? ≠ some 0x0D := by
      decide +kernel
    simp only [changedChunks, InStep]
    exact ⟨by decide, hreturn, by decide, hreturn, trivial⟩
  exact (parseDiff3Atoms_render_iff "a" "b" hlabels hcontent hlast).mpr hstep

/-- Behind a line that one side has inserted, the atom is given the line behind its hunk. -/
theorem parseDiff3Atoms_drifts :
    ∃ labels chunks last, MarkerLabels.OneLine labels ∧ IsContentLine last ∧
      (∀ chunk ∈ chunks, ∀ l ∈ Chunk.content chunk, IsContentLine l) ∧
        ¬ List.Forall₂ (IsAtomOf "a" "b") (hunksAt 1 chunks)
          (parseDiff3Atoms (render labels chunks last) "a" "b") := by
  have hlast : IsContentLine [] := by
    unfold IsContentLine
    decide +kernel
  have hcontent : ∀ chunk ∈ [.clean [] [[]], .conflict changedHunk],
      ∀ l ∈ Chunk.content chunk, IsContentLine l := by
    simp only [List.forall_mem_cons]
    exact ⟨fun l hl => List.mem_singleton.mp hl ▸ hlast, content_changedHunk, nofun⟩
  refine ⟨⟨[], [], []⟩, [.clean [] [[]], .conflict changedHunk], [],
    ⟨List.not_mem_nil, List.not_mem_nil, List.not_mem_nil⟩, hlast, hcontent, ?_⟩
  rw [parseDiff3Atoms_render _ _ ⟨List.not_mem_nil, List.not_mem_nil, List.not_mem_nil⟩ hcontent
    List.not_mem_nil]
  intro hatoms
  have hstep := (forall₂_chunkAtoms_iff hcontent).mp hatoms
  simp only [InStep] at hstep
  exact absurd hstep.1.1 (by decide)

end Rendering

end Maw
