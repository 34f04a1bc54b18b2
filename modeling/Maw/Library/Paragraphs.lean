import Mathlib.Data.List.Flatten
import Mathlib.Data.List.Perm.Basic

/-!
# Texts as blocks of lines

A text consists of lines, each with a separator behind it but for the last one perhaps, and its
lines are taken together to blocks, each of which ends with the next blank line. When the blocks
are put into another order the text falls into the same lines and the same blocks, unless a last
block that no blank line ends, or no separator, is put in front of another one.

## Main definitions

* `Paragraphs.segments` — the lines of a text, with their separators.
* `Paragraphs.blocks` — the blocks of a text.
* `Paragraphs.IsBlock`, `Paragraphs.IsClosed` — the lines of a block, and of one that a blank line
  ends.

## Main results

* `Paragraphs.exists_parts` — a text consists of closed blocks and a last one.
* `Paragraphs.segments_parts`, `Paragraphs.blocks_parts` — what blocks put together are split into.
* `Paragraphs.keeps_iff` — the orders of the blocks that keep lines and blocks.
-/

namespace Paragraphs

section Segments

variable {α : Type*} [DecidableEq α] {sep : α}

/-- The lines of a text, with their separators. -/
def segments (sep : α) : List α → List (List α)
  | [] => []
  | a :: text =>
    if a = sep then [a] :: segments sep text
    else
      match segments sep text with
      | [] => [[a]]
      | line :: lines => (a :: line) :: lines

/-- A line with its separator. -/
def IsSegment (sep : α) (s : List α) : Prop := ∃ line, sep ∉ line ∧ s = line ++ [sep]

theorem flatten_segments (sep : α) (text : List α) : (segments sep text).flatten = text := by
  induction text with
  | nil => rfl
  | cons a text ih =>
    rw [segments]
    split_ifs
    · rw [List.flatten_cons, ih, List.singleton_append]
    · rcases h : segments sep text with _ | ⟨line, lines⟩
      · rw [h] at ih
        rw [← ih]
        rfl
      · rw [h] at ih
        simp only [List.flatten_cons, List.cons_append] at ih ⊢
        rw [ih]

theorem segments_append {s : List α} (hs : IsSegment sep s) (text : List α) :
    segments sep (s ++ text) = s :: segments sep text := by
  obtain ⟨line, hline, rfl⟩ := hs
  induction line with
  | nil => rw [List.nil_append, List.singleton_append, segments, if_pos rfl]
  | cons a line ih =>
    obtain ⟨ha, hline⟩ := not_or.mp (List.mem_cons.not.mp hline)
    rw [List.cons_append, List.cons_append, segments, if_neg (Ne.symm ha), ih hline]

theorem segments_of_not_mem {last : List α} (h : sep ∉ last) :
    segments sep last = if last = [] then [] else [last] := by
  induction last with
  | nil => rfl
  | cons a last ih =>
    obtain ⟨ha, hlast⟩ := not_or.mp (List.mem_cons.not.mp h)
    rw [segments, if_neg (Ne.symm ha), ih hlast, if_neg (List.cons_ne_nil _ _)]
    split_ifs with hnil
    · rw [hnil]
    · rfl

/-- The lines of a text are lines with a separator, and a last one that has none if it is not
empty. -/
theorem exists_segments (sep : α) (text : List α) : ∃ segs last,
    segments sep text = segs ++ (if last = [] then [] else [last]) ∧
      (∀ s ∈ segs, IsSegment sep s) ∧ sep ∉ last := by
  induction text with
  | nil => exact ⟨[], [], rfl, nofun, List.not_mem_nil⟩
  | cons a text ih =>
    obtain ⟨segs, last, heq, hsegs, hlast⟩ := ih
    rw [segments, heq]
    by_cases ha : a = sep
    · rw [if_pos ha]
      exact ⟨[a] :: segs, last, rfl,
        List.forall_mem_cons.mpr ⟨⟨[], List.not_mem_nil, by rw [ha]; rfl⟩, hsegs⟩, hlast⟩
    · rw [if_neg ha]
      rcases segs with _ | ⟨s, segs⟩
      · refine ⟨[], a :: last, ?_, nofun, by simp [Ne.symm ha, hlast]⟩
        rw [if_neg (List.cons_ne_nil _ _)]
        rcases eq_or_ne last [] with rfl | hnil
        · rfl
        · rw [if_neg hnil]
          rfl
      · obtain ⟨⟨line, hline, rfl⟩, hrest⟩ := List.forall_mem_cons.mp hsegs
        refine ⟨(a :: (line ++ [sep])) :: segs, last, rfl, ?_, hlast⟩
        exact List.forall_mem_cons.mpr ⟨⟨a :: line, by simp [Ne.symm ha, hline], rfl⟩, hrest⟩

/-- The lines of lines with separators and a last one. -/
theorem segments_flatten_append {segs : List (List α)} (h : ∀ s ∈ segs, IsSegment sep s)
    (text : List α) : segments sep (segs.flatten ++ text) = segs ++ segments sep text := by
  induction segs with
  | nil => rfl
  | cons s segs ih =>
    obtain ⟨hs, hsegs⟩ := List.forall_mem_cons.mp h
    rw [List.flatten_cons, List.append_assoc, segments_append hs, ih hsegs, List.cons_append]

/-- A text that ends in a separator has as many lines as separators, any other one has one
more. -/
theorem length_segments {segs : List (List α)} (h : ∀ s ∈ segs, IsSegment sep s) {last : List α}
    (hlast : sep ∉ last) : (segments sep (segs.flatten ++ last)).length =
      (segs.flatten ++ last).count sep + if last = [] then 0 else 1 := by
  have hcount : segs.flatten.count sep = segs.length := by
    induction segs with
    | nil => rfl
    | cons s segs ih =>
      obtain ⟨⟨line, hline, rfl⟩, hsegs⟩ := List.forall_mem_cons.mp h
      rw [List.flatten_cons, List.count_append, ih hsegs, List.count_append,
        List.count_eq_zero.mpr hline, List.length_cons, List.count_singleton_self]
      omega
  rw [segments_flatten_append h, segments_of_not_mem hlast, List.length_append, List.count_append,
    hcount, List.count_eq_zero.mpr hlast]
  split_ifs <;> rfl

end Segments

section Blocks

variable {α : Type*} [DecidableEq α] (sep : α) (blank : List α → Bool)

/-- The blocks of lines, behind what the current block has so far. -/
def blocksFrom (current : List α) : List (List α) → List (List α)
  | [] => if current.isEmpty then [] else [current]
  | s :: segs =>
    if blank s then (current ++ s) :: blocksFrom [] segs else blocksFrom (current ++ s) segs

/-- The blocks of a text. -/
def blocks (text : List α) : List (List α) := blocksFrom blank [] (segments sep text)

/-- The lines of a block: only the last one may be blank, or have no separator. -/
def IsBlock (g : List (List α)) : Prop :=
  ∃ front last, g = front ++ [last] ∧ (∀ s ∈ front, IsSegment sep s ∧ blank s = false) ∧
    (IsSegment sep last ∨ last ≠ [] ∧ sep ∉ last)

/-- The lines of a block that a blank line ends. -/
def IsClosed (g : List (List α)) : Prop :=
  ∃ front last, g = front ++ [last] ∧ (∀ s ∈ front, IsSegment sep s ∧ blank s = false) ∧
    IsSegment sep last ∧ blank last = true

variable {sep blank}

omit [DecidableEq α] in
theorem IsClosed.isBlock {g : List (List α)} (h : IsClosed sep blank g) : IsBlock sep blank g := by
  obtain ⟨front, last, hg, hfront, hlast, -⟩ := h
  exact ⟨front, last, hg, hfront, .inl hlast⟩

omit [DecidableEq α] in
theorem IsClosed.isSegment {g : List (List α)} (h : IsClosed sep blank g) :
    ∀ s ∈ g, IsSegment sep s := by
  obtain ⟨front, last, rfl, hfront, hlast, -⟩ := h
  intro s hs
  rcases List.mem_append.mp hs with hs | hs
  · exact (hfront s hs).1
  · rwa [List.mem_singleton.mp hs]

omit [DecidableEq α] in
theorem blocksFrom_append {front : List (List α)} (h : ∀ s ∈ front, blank s = false)
    (current : List α) (segs : List (List α)) :
    blocksFrom blank current (front ++ segs) =
      blocksFrom blank (current ++ front.flatten) segs := by
  induction front generalizing current with
  | nil => simp
  | cons s front ih =>
    obtain ⟨hs, hfront⟩ := List.forall_mem_cons.mp h
    rw [List.cons_append, blocksFrom, hs, if_neg Bool.false_ne_true, ih hfront, List.flatten_cons,
      List.append_assoc]

omit [DecidableEq α] in
/-- A closed block is split off. -/
theorem IsClosed.blocksFrom {g : List (List α)} (h : IsClosed sep blank g)
    (segs : List (List α)) :
    blocksFrom blank [] (g ++ segs) = g.flatten :: blocksFrom blank [] segs := by
  obtain ⟨front, last, rfl, hfront, -, hblank⟩ := h
  rw [List.append_assoc, blocksFrom_append fun s hs => (hfront s hs).2, List.singleton_append,
    Paragraphs.blocksFrom, if_pos hblank]
  simp

omit [DecidableEq α] in
/-- The lines of one block are one block. -/
theorem IsBlock.blocksFrom {g : List (List α)} (h : IsBlock sep blank g) :
    blocksFrom blank [] g = [g.flatten] := by
  obtain ⟨front, last, rfl, hfront, hlast⟩ := h
  have hne : last ≠ [] := by
    rcases hlast with ⟨line, -, rfl⟩ | ⟨hne, -⟩
    · simp
    · exact hne
  rw [blocksFrom_append fun s hs => (hfront s hs).2, Paragraphs.blocksFrom]
  split_ifs
  · simp [Paragraphs.blocksFrom]
  · rw [Paragraphs.blocksFrom, if_neg (by simp [hne])]
    simp

/-! ### Blocks put together -/

/-- The text of blocks. -/
def textOf (gs : List (List (List α))) : List α := gs.flatten.flatten

/-- Closed blocks and a last one have their lines. -/
theorem segments_parts {gs : List (List (List α))} {t : List (List α)}
    (hgs : ∀ g ∈ gs, IsClosed sep blank g) (ht : IsBlock sep blank t) :
    segments sep (textOf (gs ++ [t])) = (gs ++ [t]).flatten := by
  have hsegs : ∀ s ∈ gs.flatten, IsSegment sep s := by
    intro s hs
    obtain ⟨g, hg, hs⟩ := List.mem_flatten.mp hs
    exact (hgs g hg).isSegment s hs
  obtain ⟨front, last, rfl, hfront, hlast⟩ := ht
  rw [textOf, List.flatten_append, List.flatten_append, segments_flatten_append hsegs,
    List.flatten_singleton, List.flatten_append,
    segments_flatten_append fun s hs => (hfront s hs).1, List.flatten_singleton]
  rcases hlast with hlast | ⟨hne, hsep⟩
  · have hone := segments_append hlast []
    rw [List.append_nil] at hone
    rw [hone, segments]
  · rw [segments_of_not_mem hsep, if_neg hne]

/-- Closed blocks and a last one are split into these. -/
theorem blocks_parts {gs : List (List (List α))} {t : List (List α)}
    (hgs : ∀ g ∈ gs, IsClosed sep blank g) (ht : IsBlock sep blank t) :
    blocks sep blank (textOf (gs ++ [t])) = (gs ++ [t]).map List.flatten := by
  rw [blocks, segments_parts hgs ht]
  induction gs with
  | nil =>
    rw [List.nil_append, List.flatten_singleton, ht.blocksFrom]
    rfl
  | cons g gs ih =>
    obtain ⟨hg, hgs⟩ := List.forall_mem_cons.mp hgs
    rw [List.cons_append, List.flatten_cons, hg.blocksFrom, ih hgs, List.map_cons]

omit [DecidableEq α] in
/-- The lines of a text can be taken together to blocks. -/
private theorem exists_parts_segments {segs : List (List α)} (h : ∀ s ∈ segs, IsSegment sep s)
    {last : List α} (hlast : sep ∉ last) (hne : segs ≠ [] ∨ last ≠ []) :
    ∃ gs t, (gs ++ [t]).flatten = segs ++ (if last = [] then [] else [last]) ∧
      (∀ g ∈ gs, IsClosed sep blank g) ∧ IsBlock sep blank t := by
  induction segs with
  | nil =>
    have hnil := hne.resolve_left (not_not.mpr rfl)
    refine ⟨[], [last], ?_, nofun, [], last, rfl, nofun, .inr ⟨hnil, hlast⟩⟩
    rw [if_neg hnil]
    rfl
  | cons s segs ih =>
    obtain ⟨hs, hsegs⟩ := List.forall_mem_cons.mp h
    by_cases hmore : segs ≠ [] ∨ last ≠ []
    · obtain ⟨gs, t, hflat, hgs, ht⟩ := ih hsegs hmore
      rcases hblank : blank s with _ | _
      · rcases gs with _ | ⟨g, gs⟩
        · obtain ⟨front, end', rfl, hfront, hend⟩ := ht
          refine ⟨[], s :: (front ++ [end']), ?_, nofun, s :: front, end', rfl,
            List.forall_mem_cons.mpr ⟨⟨hs, hblank⟩, hfront⟩, hend⟩
          rw [List.cons_append, ← hflat]
          simp
        · obtain ⟨⟨front, end', rfl, hfront, hend, hblank'⟩, hrest⟩ := List.forall_mem_cons.mp hgs
          refine ⟨(s :: (front ++ [end'])) :: gs, t, ?_, List.forall_mem_cons.mpr
            ⟨⟨s :: front, end', rfl, List.forall_mem_cons.mpr ⟨⟨hs, hblank⟩, hfront⟩, hend,
              hblank'⟩, hrest⟩, ht⟩
          rw [List.cons_append, List.cons_append, ← hflat]
          simp
      · refine ⟨[s] :: gs, t, ?_, List.forall_mem_cons.mpr
          ⟨⟨[], s, rfl, nofun, hs, hblank⟩, hgs⟩, ht⟩
        rw [List.cons_append, List.cons_append, ← hflat]
        simp
    · rw [not_or, not_not, not_not] at hmore
      obtain ⟨rfl, rfl⟩ := hmore
      exact ⟨[], [s], rfl, nofun, [], s, rfl, nofun, .inl hs⟩

/-- A text consists of closed blocks and a last one. -/
theorem exists_parts {text : List α} (h : text ≠ []) : ∃ gs t, text = textOf (gs ++ [t]) ∧
    (∀ g ∈ gs, IsClosed sep blank g) ∧ IsBlock sep blank t := by
  obtain ⟨segs, last, heq, hsegs, hlast⟩ := exists_segments sep text
  have hne : segs ≠ [] ∨ last ≠ [] := by
    rw [← not_and_or]
    rintro ⟨rfl, rfl⟩
    have hflat := flatten_segments sep text
    rw [heq] at hflat
    exact h hflat.symm
  obtain ⟨gs, t, hflat, hgs, ht⟩ : ∃ gs t, (gs ++ [t]).flatten =
      segs ++ (if last = [] then [] else [last]) ∧ (∀ g ∈ gs, IsClosed sep blank g) ∧
        IsBlock sep blank t := exists_parts_segments hsegs hlast hne
  exact ⟨gs, t, by rw [textOf, hflat, ← heq, flatten_segments], hgs, ht⟩

/-! ### Blocks in another order -/

/-- The text of a line. -/
def lineText (sep : α) (s : List α) : List α := s.takeWhile (· ≠ sep)

/-- Another text has the same lines, whether they end in a separator or not, and the same
blocks. -/
def Keeps (sep : α) (blank : List α → Bool) (text text' : List α) : Prop :=
  ((segments sep text').map (lineText sep)).Perm ((segments sep text).map (lineText sep)) ∧
    (blocks sep blank text').Perm (blocks sep blank text)

omit [DecidableEq α] in
theorem length_blocksFrom_concat {b : List α} (hb : blank b = true) (current : List α)
    (segs : List (List α)) :
    (blocksFrom blank current (segs ++ [b])).length = segs.countP blank + 1 := by
  induction segs generalizing current with
  | nil => rw [List.nil_append, blocksFrom, if_pos hb]; rfl
  | cons s segs ih =>
    rw [List.cons_append, blocksFrom, List.countP_cons]
    split_ifs
    · rw [List.length_cons, ih]
    · rw [ih]

omit [DecidableEq α] in
theorem countP_of_not_blank {front : List (List α)} (h : ∀ s ∈ front, blank s = false) :
    front.countP blank = 0 :=
  List.countP_eq_zero.mpr fun s hs => by rw [h s hs]; exact Bool.false_ne_true

omit [DecidableEq α] in
theorem IsClosed.countP {g : List (List α)} (h : IsClosed sep blank g) : g.countP blank = 1 := by
  obtain ⟨front, last, rfl, hfront, -, hblank⟩ := h
  rw [List.countP_append, countP_of_not_blank fun s hs => (hfront s hs).2,
    List.countP_singleton, if_pos hblank]

omit [DecidableEq α] in
theorem countP_flatten {gs : List (List (List α))} (h : ∀ g ∈ gs, IsClosed sep blank g) :
    gs.flatten.countP blank = gs.length := by
  induction gs with
  | nil => rfl
  | cons g gs ih =>
    obtain ⟨hg, hgs⟩ := List.forall_mem_cons.mp h
    rw [List.flatten_cons, List.countP_append, hg.countP, ih hgs, List.length_cons, Nat.add_comm]

/-- An open block in front of another one is not kept. -/
theorem not_keeps {gs H : List (List (List α))} {t h : List (List α)}
    (hgs : ∀ g ∈ gs, IsClosed sep blank g) (ht : IsBlock sep blank t)
    (hopen : ¬ IsClosed sep blank t) (hh : IsClosed sep blank h)
    (hperm : (H ++ [h]).Perm (gs ++ [t])) :
    ¬ Keeps sep blank (textOf (gs ++ [t])) (textOf (H ++ [h])) := by
  rintro ⟨hlines, hblocks⟩
  have hflat : (H ++ [h]).flatten.Perm (gs ++ [t]).flatten := hperm.flatten
  obtain ⟨front, last, rfl, hfront, hlast⟩ := ht
  rcases hlast with hlast | ⟨hne, hsep⟩
  · -- All lines have separators; the open block adds no blank line.
    have hnot : blank last = false :=
      Bool.eq_false_iff.mpr fun hblank => hopen ⟨front, last, rfl, hfront, hlast, hblank⟩
    have hsegs : ∀ s ∈ (H ++ [h]).flatten, IsSegment sep s := by
      intro s hs
      obtain ⟨g, hg, hs⟩ := List.mem_flatten.mp (hflat.mem_iff.mp hs)
      rcases List.mem_append.mp hg with hg | hg
      · exact (hgs g hg).isSegment s hs
      · rw [List.mem_singleton.mp hg] at hs
        rcases List.mem_append.mp hs with hs | hs
        · exact (hfront s hs).1
        · rwa [List.mem_singleton.mp hs]
    have hcount : (H ++ [h]).flatten.countP blank = gs.length := by
      rw [hflat.countP_eq, List.flatten_append, List.countP_append, countP_flatten hgs,
        List.flatten_singleton, List.countP_append, countP_of_not_blank fun s hs => (hfront s hs).2,
        List.countP_singleton, hnot, if_neg Bool.false_ne_true, Nat.add_zero]
    have hlength : (blocks sep blank (textOf (H ++ [h]))).length = gs.length := by
      have hsegments := segments_flatten_append hsegs []
      obtain ⟨hf, hb, rfl, hhf, -, hblank⟩ := hh
      rw [segments, List.append_nil, List.append_nil] at hsegments
      rw [blocks, textOf, hsegments]
      rw [List.flatten_append, List.flatten_singleton, ← List.append_assoc] at hcount ⊢
      rw [List.countP_append, List.countP_singleton, if_pos hblank] at hcount
      rw [length_blocksFrom_concat hblank, hcount]
    have hblocks' := hblocks.length_eq
    rw [hlength, blocks_parts hgs ⟨front, last, rfl, hfront, .inl hlast⟩, List.length_map,
      List.length_append, List.length_singleton] at hblocks'
    omega
  · -- The last line is not the last one any more, but has no separator.
    have hall : ∀ s ∈ (gs ++ [front]).flatten, IsSegment sep s := by
      intro s hs
      obtain ⟨g, hg, hs⟩ := List.mem_flatten.mp hs
      rcases List.mem_append.mp hg with hg | hg
      · exact (hgs g hg).isSegment s hs
      · rw [List.mem_singleton.mp hg] at hs
        exact (hfront s hs).1
    have htext : textOf (gs ++ [front ++ [last]]) = (gs ++ [front]).flatten.flatten ++ last := by
      simp [textOf]
    have hlength := length_segments hall hsep
    rw [← htext, if_neg hne] at hlength
    have hlength' : (segments sep (textOf (H ++ [h]))).length =
        (textOf (H ++ [h])).count sep := by
      obtain ⟨segs, last', heq, hsegs, hlast'⟩ := exists_segments sep (textOf (H ++ [h]))
      have hflat' := flatten_segments sep (textOf (H ++ [h]))
      have hnil : last' = [] := by
        obtain ⟨hf, hb, rfl, -, ⟨line, -, rfl⟩, -⟩ := hh
        have hend : (textOf (H ++ [hf ++ [line ++ [sep]]])).getLast? = some sep := by
          rw [textOf, List.flatten_append, List.flatten_singleton, List.flatten_append,
            List.flatten_append, List.flatten_singleton, ← List.append_assoc, ← List.append_assoc,
            List.getLast?_concat]
        by_contra hnil
        rw [heq, if_neg hnil, List.flatten_append, List.flatten_singleton] at hflat'
        rw [← hflat', List.getLast?_append_of_ne_nil _ hnil] at hend
        exact hlast' (List.mem_of_getLast? hend)
      subst hnil
      rw [heq, if_pos rfl, List.append_nil] at hflat'
      have hcount := length_segments hsegs hlast'
      rwa [List.append_nil, hflat', if_pos rfl, Nat.add_zero] at hcount
    have hcount : (textOf (H ++ [h])).count sep = (textOf (gs ++ [front ++ [last]])).count sep :=
      hflat.flatten.count_eq sep
    have hperm' := hlines.length_eq
    rw [List.length_map, List.length_map, hlength, hlength', hcount] at hperm'
    omega

/-- The orders of the blocks of a text that keep its lines and blocks: all, if a blank line ends
the last block, and else those that leave it the last one. -/
theorem keeps_iff {gs H : List (List (List α))} {t : List (List α)}
    (hgs : ∀ g ∈ gs, IsClosed sep blank g) (ht : IsBlock sep blank t)
    (hperm : H.Perm (gs ++ [t])) :
    Keeps sep blank (textOf (gs ++ [t])) (textOf H) ↔
      IsClosed sep blank t ∨ H.getLast? = some t := by
  have hkeeps {H' : List (List (List α))} {h : List (List α)} (hH : H = H' ++ [h])
      (hclosed : ∀ g ∈ H', IsClosed sep blank g) (hh : IsBlock sep blank h) :
      Keeps sep blank (textOf (gs ++ [t])) (textOf H) := by
    subst hH
    rw [Keeps, segments_parts hgs ht, segments_parts hclosed hh, blocks_parts hgs ht,
      blocks_parts hclosed hh]
    exact ⟨hperm.flatten.map _, hperm.map _⟩
  obtain ⟨H', h, rfl⟩ : ∃ H' h, H = H' ++ [h] := by
    rcases List.eq_nil_or_concat H with rfl | ⟨H', h, rfl⟩
    · exact absurd hperm.symm (by simp)
    · exact ⟨H', h, List.concat_eq_append⟩
  rw [List.getLast?_concat, Option.some_inj]
  constructor
  · intro hkeep
    by_contra hnot
    rw [not_or] at hnot
    have hmem : h ∈ gs ++ [t] := hperm.mem_iff.mp (by simp)
    have hh : h ∈ gs := (List.mem_append.mp hmem).resolve_right fun hlast =>
      hnot.2 (List.mem_singleton.mp hlast)
    exact not_keeps hgs ht hnot.1 (hgs h hh) hperm hkeep
  · rintro (hclosed | rfl)
    · have hall : ∀ g ∈ H' ++ [h], IsClosed sep blank g := by
        intro g hg
        rcases List.mem_append.mp (hperm.mem_iff.mp hg) with hg | hg
        · exact hgs g hg
        · rwa [List.mem_singleton.mp hg]
      exact hkeeps rfl (fun g hg => hall g (List.mem_append_left _ hg)) (hall h (by simp)).isBlock
    · have hfront := (List.perm_append_right_iff [h]).mp hperm
      exact hkeeps rfl (fun g hg => hgs g (hfront.mem_iff.mp hg)) ht

end Blocks

end Paragraphs
