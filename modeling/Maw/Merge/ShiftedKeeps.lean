import Maw.Library.KeyedSort
import Maw.Merge.Resolve
import Maw.Merge.ShiftedBlocks

/-!
# What moving blocks keeps

A version with its blocks moved has the lines and the blocks of the version, unless its last block
is not ended by a blank line and is moved in front of another one: then two blocks become one, and
without a line feed at the end two lines become one.

## Main definitions

* `Common` — a block that stands once in the version and once in the base.
* `MovesCleanly` — a blank line ends the version, or no anchor is moved behind the last one.
* `MergesLines` — a merge has the lines that its sides wrote.

## Main results

* `getLast?_sortedBlocks_iff` — when the last block stays the last one.
* `normalizeShiftedBlocks_keeps_iff` — when moving blocks keeps lines and blocks, and so does the
  merge that is tried again.
-/

open Paragraphs

namespace Maw

/-! ### Anchors -/

/-- A block of the version and one of the base have the signature of each other and of no other
block. -/
def Common (baseBlocks variantBlocks : List Bytes) (i j : ℕ) : Prop :=
  ∃ block, variantBlocks[i]? = some block ∧
    (∃ base, baseBlocks[j]? = some base ∧ blockSignature base = blockSignature block) ∧
    (∀ j' base, baseBlocks[j']? = some base → blockSignature base = blockSignature block → j' = j) ∧
    ∀ i' other, variantBlocks[i']? = some other → blockSignature other = blockSignature block →
      i' = i

theorem mem_positions {blocks : List Bytes} {signature : List Char} {p : ℕ} :
    p ∈ positions blocks signature ↔
      ∃ block, blocks[p]? = some block ∧ blockSignature block = signature := by
  simp only [positions, List.mem_map, List.mem_filter, decide_eq_true_iff, Prod.exists,
    exists_eq_right, List.mem_zipIdx_iff_getElem?]

theorem nodup_positions (blocks : List Bytes) (signature : List Char) :
    (positions blocks signature).Nodup := by
  have hsub : (positions blocks signature).Sublist (blocks.zipIdx.map Prod.snd) :=
    List.filter_sublist.map _
  rw [List.zipIdx_map_snd] at hsub
  exact hsub.nodup List.nodup_range'

theorem positions_eq_singleton_iff {blocks : List Bytes} {signature : List Char} {p : ℕ} :
    positions blocks signature = [p] ↔
      (∃ block, blocks[p]? = some block ∧ blockSignature block = signature) ∧
        ∀ p' block, blocks[p']? = some block → blockSignature block = signature → p' = p := by
  rw [← mem_positions]
  constructor
  · intro h
    refine ⟨by rw [h]; exact List.mem_singleton_self p, fun p' block hblock hsig => ?_⟩
    have hmem := mem_positions.mpr ⟨block, hblock, hsig⟩
    rwa [h, List.mem_singleton] at hmem
  · rintro ⟨hmem, hunique⟩
    have hall : ∀ p' ∈ positions blocks signature, p' = p := by
      intro p' hp'
      obtain ⟨block, hblock, hsig⟩ := mem_positions.mp hp'
      exact hunique p' block hblock hsig
    have hnodup := nodup_positions blocks signature
    rcases hps : positions blocks signature with _ | ⟨q, _ | ⟨r, ps⟩⟩
    · rw [hps] at hmem
      exact absurd hmem List.not_mem_nil
    · rw [hps] at hall
      rw [hall q List.mem_cons_self]
    · rw [hps] at hall hnodup
      have hq := hall q (by simp)
      have hr := hall r (by simp)
      rw [List.nodup_cons] at hnodup
      exact absurd (by rw [hq, hr]; exact List.mem_cons_self) hnodup.1

/-- The anchors are the blocks that the texts have in common. -/
theorem anchorOf_eq_some_iff {baseBlocks variantBlocks : List Bytes} {i j : ℕ} {block : Bytes}
    (h : variantBlocks[i]? = some block) :
    anchorOf baseBlocks variantBlocks block = some j ↔ Common baseBlocks variantBlocks i j := by
  rw [anchorOf]
  constructor
  · intro hanchor
    split at hanchor
    · rename_i basePos q hbase hvariant
      obtain rfl := Option.some.inj hanchor
      obtain ⟨hex, hunique⟩ := positions_eq_singleton_iff.mp hbase
      obtain ⟨-, hunique'⟩ := positions_eq_singleton_iff.mp hvariant
      obtain rfl := hunique' i block h rfl
      exact ⟨block, h, hex, hunique, hunique'⟩
    · cases hanchor
  · rintro ⟨block', hblock', hex, hunique, hunique'⟩
    obtain rfl : block = block' := Option.some.inj (h.symm.trans hblock')
    rw [positions_eq_singleton_iff.mpr ⟨hex, hunique⟩,
      positions_eq_singleton_iff.mpr ⟨⟨block, h, rfl⟩, hunique'⟩]

/-! ### Ranks -/

/-- The last anchor of a list. -/
def lastAnchor : List (Option ℕ) → Option ℕ
  | [] => none
  | anchor :: anchors => (lastAnchor anchors).or anchor

theorem getElem?_prevAnchors {anchors : List (Option ℕ)} {i : ℕ} (h : i < anchors.length)
    (last : Option ℕ) : (prevAnchors last anchors)[i]? =
      some ((lastAnchor (anchors.take (i + 1))).or last) := by
  induction anchors generalizing last i with
  | nil => cases h
  | cons anchor anchors ih =>
    rw [prevAnchors, List.take_succ_cons, lastAnchor]
    rcases i with _ | i
    · rfl
    · rw [List.getElem?_cons_succ, ih (Nat.lt_of_succ_lt_succ h), Option.or_assoc]

theorem length_prevAnchors (last : Option ℕ) (anchors : List (Option ℕ)) :
    (prevAnchors last anchors).length = anchors.length := by
  induction anchors generalizing last with
  | nil => rfl
  | cons anchor anchors ih => rw [prevAnchors, List.length_cons, ih, List.length_cons]

theorem getElem?_nextAnchors {anchors : List (Option ℕ)} {i : ℕ} (h : i < anchors.length) :
    (nextAnchors anchors)[i]? = some (lastAnchor (anchors.drop i).reverse) := by
  have hlength : (prevAnchors none anchors.reverse).length = anchors.length := by
    rw [length_prevAnchors, List.length_reverse]
  have htake : anchors.length - (anchors.length - 1 - i + 1) = i := by omega
  rw [nextAnchors, List.getElem?_reverse (by omega), hlength,
    getElem?_prevAnchors (by rw [List.length_reverse]; omega), Option.or_none, List.take_reverse,
    htake]

theorem lastAnchor_eq_none {anchors : List (Option ℕ)} :
    lastAnchor anchors = none ↔ ∀ anchor ∈ anchors, anchor = none := by
  induction anchors with
  | nil => simp [lastAnchor]
  | cons anchor anchors ih =>
    rw [lastAnchor, Option.or_eq_none_iff, ih, List.forall_mem_cons, and_comm]

theorem lastAnchor_eq_some {anchors : List (Option ℕ)} {p : ℕ}
    (h : lastAnchor anchors = some p) : ∃ i : ℕ, anchors[i]? = some (some p) ∧
      ∀ (i' p' : ℕ), anchors[i']? = some (some p') → i' ≤ i := by
  induction anchors with
  | nil => cases h
  | cons anchor anchors ih =>
    rw [lastAnchor] at h
    rcases hlast : lastAnchor anchors with _ | q
    · rw [hlast, Option.none_or] at h
      refine ⟨0, by rw [h]; rfl, fun i' p' hp' => ?_⟩
      rcases i' with _ | i'
      · exact le_rfl
      · exact absurd (lastAnchor_eq_none.mp hlast _ (List.mem_of_getElem? hp')) nofun
    · rw [hlast, Option.some_or] at h
      obtain ⟨i, hi, hmax⟩ := ih (hlast.trans h)
      refine ⟨i + 1, hi, fun i' p' hp' => ?_⟩
      rcases i' with _ | i'
      · exact Nat.zero_le _
      · exact Nat.succ_le_succ (hmax i' p' hp')

/-- The rank of the block at a place. -/
def rankAt (baseLength : ℕ) (anchors : List (Option ℕ)) (i : ℕ) : ℕ :=
  blockRank baseLength i anchors[i]?.join (prevAnchors none anchors)[i]?.join
    (nextAnchors anchors)[i]?.join

/-- A block has its rank from its own anchor, from the one in front of it, or else from one behind
it. -/
theorem rankAt_cases (baseLength : ℕ) {anchors : List (Option ℕ)} {i : ℕ}
    (hi : i < anchors.length) (hex : lastAnchor anchors ≠ none) :
    (∃ a, anchors[i]? = some (some a) ∧ rankAt baseLength anchors i = a * 4 + 2) ∨
      (∃ i' a, i' < i ∧ anchors[i']? = some (some a) ∧
        lastAnchor (anchors.take (i + 1)) = some a ∧ rankAt baseLength anchors i = a * 4 + 3) ∨
        lastAnchor (anchors.take (i + 1)) = none ∧
          ∃ (i' a : ℕ), anchors[i']? = some (some a) ∧ rankAt baseLength anchors i = a * 4 + 1 := by
  obtain ⟨anchor, hanchor⟩ : ∃ anchor, anchors[i]? = some anchor := ⟨_, List.getElem?_eq_getElem hi⟩
  rcases anchor with _ | a
  · refine .inr ?_
    have hprev := getElem?_prevAnchors hi none
    rw [Option.or_none] at hprev
    rcases hlast : lastAnchor (anchors.take (i + 1)) with _ | p
    · refine .inr ⟨rfl, ?_⟩
      have hnext := getElem?_nextAnchors hi
      rcases hback : lastAnchor (anchors.drop i).reverse with _ | q
      · -- There is no anchor at all.
        refine absurd (lastAnchor_eq_none.mpr fun anchor hmem => ?_) hex
        rw [← List.take_append_drop i anchors, List.mem_append] at hmem
        rcases hmem with hmem | hmem
        · refine lastAnchor_eq_none.mp hlast anchor ?_
          exact (List.take_subset_take_left anchors (Nat.le_succ i)) hmem
        · exact lastAnchor_eq_none.mp hback anchor (List.mem_reverse.mpr hmem)
      · obtain ⟨k, hk, -⟩ := lastAnchor_eq_some hback
        have hmem : some q ∈ anchors :=
          List.mem_of_mem_drop (List.mem_reverse.mp (List.mem_of_getElem? hk))
        obtain ⟨i', hi'⟩ := List.mem_iff_getElem?.mp hmem
        refine ⟨i', q, hi', ?_⟩
        rw [rankAt, hanchor, hprev, hnext, hlast, hback]
        rfl
    · obtain ⟨i', hi', -⟩ := lastAnchor_eq_some hlast
      have hlt : i' < i + 1 := by
        by_contra hle
        rw [List.getElem?_eq_none (by rw [List.length_take]; omega)] at hi'
        cases hi'
      rw [List.getElem?_take_of_lt hlt] at hi'
      have hne : i' ≠ i := by
        rintro rfl
        rw [hanchor] at hi'
        cases hi'
      refine .inl ⟨i', p, by omega, hi', rfl, ?_⟩
      rw [rankAt, hanchor, hprev, hlast]
      rfl
  · refine .inl ⟨a, hanchor, ?_⟩
    rw [rankAt, hanchor]
    rfl

/-- No block has a higher rank than the last one exactly if the last anchor is the furthest. -/
theorem ranks_le_iff {baseLength m : ℕ} {anchors : List (Option ℕ)}
    (hlength : anchors.length = m + 1)
    (hinj : ∀ (i i' a : ℕ), anchors[i]? = some (some a) → anchors[i']? = some (some a) → i = i')
    {p : ℕ} (hlast : lastAnchor anchors = some p) :
    (∀ i < m + 1, rankAt baseLength anchors i ≤ rankAt baseLength anchors m) ↔
      ∀ (i a : ℕ), anchors[i]? = some (some a) → a ≤ p := by
  have hex : lastAnchor anchors ≠ none := by rw [hlast]; exact Option.some_ne_none p
  have htake : anchors.take (m + 1) = anchors := by rw [← hlength, List.take_length]
  have hm := rankAt_cases baseLength (by omega : m < anchors.length) hex
  rw [htake, hlast] at hm
  obtain ⟨k, hk, hmax⟩ := lastAnchor_eq_some hlast
  have hkm : ∀ a', anchors[m]? = some (some a') → k = m ∧ a' = p := by
    intro a' ha'
    have hle := hmax m a' ha'
    have hlt := hlength ▸ (List.getElem?_eq_some_iff.mp hk).1
    obtain rfl : k = m := by omega
    exact ⟨rfl, Option.some.inj (Option.some.inj (ha'.symm.trans hk))⟩
  constructor
  · intro hle i a ha
    have hi : i < m + 1 := hlength ▸ (List.getElem?_eq_some_iff.mp ha).1
    have hrank : rankAt baseLength anchors i = a * 4 + 2 := by
      rw [rankAt, ha]
      rfl
    have hbound := hle i hi
    rcases hm with ⟨a', ha', hrank'⟩ | ⟨i', a', -, -, heq, hrank'⟩ | ⟨hnone, -⟩
    · have hap := (hkm a' ha').2
      omega
    · obtain rfl := Option.some.inj heq
      omega
    · cases hnone
  · intro hall i hi
    -- The rank of the last block is that of the last anchor, or the next one.
    have hlow : p * 4 + 2 ≤ rankAt baseLength anchors m := by
      rcases hm with ⟨a', ha', hrank⟩ | ⟨i', a', -, -, heq, hrank⟩ | ⟨hnone, -⟩
      · rw [hrank, (hkm a' ha').2]
      · rw [hrank, ← Option.some.inj heq]
        omega
      · cases hnone
    rcases rankAt_cases baseLength (by omega : i < anchors.length) hex with
      ⟨a, ha, hrank⟩ | ⟨i', a, hlt, ha, -, hrank⟩ | ⟨-, i', a, ha, hrank⟩
    · have hap := hall i a ha
      omega
    · have hap := hall i' a ha
      rcases hm with ⟨a', ha', hrank'⟩ | ⟨_, a', -, -, heq, hrank'⟩ | ⟨hnone, -⟩
      · obtain ⟨rfl, rfl⟩ := hkm a' ha'
        have hne : a ≠ a' := by
          rintro rfl
          have := hinj i' k a ha ha'
          omega
        omega
      · obtain rfl := Option.some.inj heq
        omega
      · cases hnone
    · have hap := hall i' a ha
      omega

/-! ### The order of the blocks -/

theorem mem_rankedBlocks {baseLength : ℕ} {blocks : List Bytes} {anchors : List (Option ℕ)}
    {e : RankedBlock} : e ∈ rankedBlocks baseLength blocks anchors ↔
      blocks[e.idx]? = some e.block ∧ e.rank = rankAt baseLength anchors e.idx := by
  simp only [rankedBlocks, List.mem_map, Prod.exists, List.mem_zipIdx_iff_getElem?]
  constructor
  · rintro ⟨block, i, hblock, rfl⟩
    exact ⟨hblock, rfl⟩
  · rintro ⟨hblock, hrank⟩
    exact ⟨e.block, e.idx, hblock, by rw [← rankAt, ← hrank]⟩

theorem sortedBlocks_perm (ranked : List RankedBlock) : (sortedBlocks ranked).Perm ranked :=
  List.perm_insertionSort _ _

theorem sortedBlocks_pairwise (ranked : List RankedBlock) :
    (sortedBlocks ranked).Pairwise fun a b => toLex (a.rank, a.idx) ≤ toLex (b.rank, b.idx) :=
  (KeyedSort.SortBy.insertion fun e : RankedBlock => toLex (e.rank, e.idx)).sorted ranked

/-- The last block stays the last one exactly if no other one has a higher rank. -/
theorem getLast?_sortedBlocks_iff {baseLength m : ℕ} {blocks : List Bytes}
    {anchors : List (Option ℕ)} (hlength : blocks.length = m + 1) :
    (sortedBlocks (rankedBlocks baseLength blocks anchors)).getLast?.map (·.idx) = some m ↔
      ∀ i < m + 1, rankAt baseLength anchors i ≤ rankAt baseLength anchors m := by
  have hentry (i : ℕ) (hi : i < m + 1) :
      ∃ e ∈ sortedBlocks (rankedBlocks baseLength blocks anchors),
      e.idx = i ∧ e.rank = rankAt baseLength anchors i := by
    obtain ⟨block, hblock⟩ : ∃ block, blocks[i]? = some block :=
      ⟨_, List.getElem?_eq_getElem (hlength ▸ hi)⟩
    exact ⟨⟨_, i, block⟩, (sortedBlocks_perm _).mem_iff.mpr (mem_rankedBlocks.mpr ⟨hblock, rfl⟩),
      rfl, rfl⟩
  have hmem : ∀ e ∈ sortedBlocks (rankedBlocks baseLength blocks anchors),
      e.idx < m + 1 ∧ e.rank = rankAt baseLength anchors e.idx := by
    intro e he
    obtain ⟨hblock, hrank⟩ := mem_rankedBlocks.mp ((sortedBlocks_perm _).mem_iff.mp he)
    exact ⟨hlength ▸ (List.getElem?_eq_some_iff.mp hblock).1, hrank⟩
  have hpairwise := sortedBlocks_pairwise (rankedBlocks baseLength blocks anchors)
  generalize sortedBlocks (rankedBlocks baseLength blocks anchors) = sorted at *
  rcases List.eq_nil_or_concat sorted with rfl | ⟨front, last, rfl⟩
  · obtain ⟨e, he, -⟩ := hentry m (Nat.lt_succ_self m)
    exact absurd he List.not_mem_nil
  rw [List.concat_eq_append] at *
  have hle : ∀ e ∈ front ++ [last], e.rank < last.rank ∨ e.rank = last.rank ∧ e.idx ≤ last.idx := by
    intro e he
    rcases List.mem_append.mp he with he | he
    · have hlex := (List.pairwise_append.mp hpairwise).2.2 e he last (List.mem_singleton_self _)
      exact (Prod.Lex.toLex_le_toLex.mp hlex)
    · rw [List.mem_singleton.mp he]
      exact .inr ⟨rfl, le_rfl⟩
  obtain ⟨hidx, hrank⟩ := hmem last (by simp)
  rw [List.getLast?_concat, Option.map_some, Option.some_inj]
  constructor
  · rintro rfl i hi
    obtain ⟨e, he, rfl, hrank'⟩ := hentry i hi
    rw [← hrank, ← hrank']
    rcases hle e he with hlt | ⟨heq, -⟩
    · exact hlt.le
    · exact heq.le
  · intro hall
    obtain ⟨e, he, hem, hrank'⟩ := hentry m (Nat.lt_succ_self m)
    have hbound := hall last.idx hidx
    rcases hle e he with hlt | ⟨-, hle'⟩
    · omega
    · omega

/-! ### Lines and blocks are kept -/

/-- The last line of a text is blank and has a line feed. -/
def EndsBlank (text : Bytes) : Prop :=
  ∃ line, (segments 0x0A text).getLast? = some line ∧ isBlankSegment line = true ∧
    line.getLast? = some 0x0A

/-- Of the blocks that stand once in each text, the last one of the version is the last one of the
base. -/
def LastStays (base variant : Bytes) : Prop :=
  ∀ i j i' j', Common (splitBlocks base) (splitBlocks variant) i j →
    Common (splitBlocks base) (splitBlocks variant) i' j' →
    (∀ i'' j'', Common (splitBlocks base) (splitBlocks variant) i'' j'' → i'' ≤ i') → j ≤ j'

theorem Common.right_unique {baseBlocks variantBlocks : List Bytes} {i j j' : ℕ}
    (h : Common baseBlocks variantBlocks i j) (h' : Common baseBlocks variantBlocks i j') :
    j = j' := by
  obtain ⟨block, hblock, ⟨base, hbase, hsig⟩, -, -⟩ := h
  obtain ⟨block', hblock', -, hunique, -⟩ := h'
  obtain rfl := Option.some.inj (hblock.symm.trans hblock')
  exact hunique j base hbase hsig

theorem Common.left_unique {baseBlocks variantBlocks : List Bytes} {i i' j : ℕ}
    (h : Common baseBlocks variantBlocks i j) (h' : Common baseBlocks variantBlocks i' j) :
    i = i' := by
  obtain ⟨block, hblock, ⟨base, hbase, hsig⟩, -, -⟩ := h
  obtain ⟨block', hblock', ⟨base', hbase', hsig'⟩, -, hunique⟩ := h'
  obtain rfl := Option.some.inj (hbase.symm.trans hbase')
  exact hunique i block hblock (hsig.symm.trans hsig')

theorem Common.lt {baseBlocks variantBlocks : List Bytes} {i j : ℕ}
    (h : Common baseBlocks variantBlocks i j) :
    i < variantBlocks.length ∧ j < baseBlocks.length := by
  obtain ⟨block, hblock, ⟨base, hbase, -⟩, -, -⟩ := h
  exact ⟨(List.getElem?_eq_some_iff.mp hblock).1, (List.getElem?_eq_some_iff.mp hbase).1⟩

/-- The anchors of the blocks of a version. -/
def anchorsOf (baseBlocks variantBlocks : List Bytes) : List (Option ℕ) :=
  variantBlocks.map (anchorOf baseBlocks variantBlocks)

theorem getElem?_anchorsOf {baseBlocks variantBlocks : List Bytes} {i j : ℕ} :
    (anchorsOf baseBlocks variantBlocks)[i]? = some (some j) ↔
      Common baseBlocks variantBlocks i j := by
  rw [anchorsOf, List.getElem?_map, Option.map_eq_some_iff]
  constructor
  · rintro ⟨block, hblock, hanchor⟩
    exact (anchorOf_eq_some_iff hblock).mp hanchor
  · intro h
    obtain ⟨block, hblock, -⟩ := id h
    exact ⟨block, hblock, (anchorOf_eq_some_iff hblock).mpr h⟩

/-- If no anchor is moved, the last one is the last one of both texts. -/
theorem lastStays_of_movedAnchorCount {base variant : Bytes}
    (h : movedAnchorCount (anchorsOf (splitBlocks base) (splitBlocks variant)) = 0) :
    LastStays base variant := by
  have hsame (i j : ℕ) (hij : Common (splitBlocks base) (splitBlocks variant) i j) : j = i := by
    have hmem : (some j, i) ∈ (anchorsOf (splitBlocks base) (splitBlocks variant)).zipIdx :=
      List.mem_zipIdx_iff_getElem?.mpr (getElem?_anchorsOf.mpr hij)
    rw [movedAnchorCount, List.length_eq_zero_iff, List.filter_eq_nil_iff] at h
    simpa using h _ hmem
  intro i j i' j' hij hij' hmax
  rw [hsame i j hij, hsame i' j' hij']
  exact hmax i j hij

/-- The last anchor is the furthest one of the base. -/
theorem forall_le_iff_lastStays {base variant : Bytes} {p : ℕ}
    (hlast : lastAnchor (anchorsOf (splitBlocks base) (splitBlocks variant)) = some p) :
    (∀ (i a : ℕ), (anchorsOf (splitBlocks base) (splitBlocks variant))[i]? = some (some a) →
      a ≤ p) ↔ LastStays base variant := by
  obtain ⟨k, hk, hmax⟩ := lastAnchor_eq_some hlast
  simp only [getElem?_anchorsOf] at hk hmax ⊢
  constructor
  · intro hle i j i' j' hij hij' hmax'
    obtain rfl : i' = k := le_antisymm (hmax i' j' hij') (hmax' k p hk)
    rw [hij'.right_unique hk]
    exact hle i j hij
  · intro hstays i a ha
    exact hstays i a k p ha hk hmax

/-- A blank line ends a text exactly if it ends its last block. -/
theorem endsBlank_iff {gs : List (List Bytes)} {t : List Bytes}
    (hgs : ∀ g ∈ gs, IsClosed 0x0A isBlankSegment g) (ht : IsBlock 0x0A isBlankSegment t) :
    EndsBlank (Paragraphs.textOf (gs ++ [t])) ↔ IsClosed 0x0A isBlankSegment t := by
  have hsegments := segments_parts hgs ht
  obtain ⟨front, last, rfl, hfront, hlast⟩ := ht
  have hgetLast : (segments 0x0A (Paragraphs.textOf (gs ++ [front ++ [last]]))).getLast? =
      some last := by
    rw [hsegments, List.flatten_append, List.flatten_singleton, ← List.append_assoc,
      List.getLast?_concat]
  rw [EndsBlank, hgetLast]
  constructor
  · rintro ⟨line, hline, hblank, hend⟩
    obtain rfl := Option.some.inj hline
    exact ⟨front, last, rfl, hfront, hlast.resolve_right fun hopen =>
      hopen.2 (List.mem_of_getLast? hend), hblank⟩
  · rintro ⟨front', last', heq, -, ⟨line, -, hline⟩, hblank⟩
    obtain rfl : last = last' := by
      have hends := congrArg List.getLast? heq
      rw [List.getLast?_concat, List.getLast?_concat] at hends
      exact Option.some.inj hends
    exact ⟨last, rfl, hblank, by rw [hline, List.getLast?_concat]⟩

/-- The version with its blocks in the order of their ranks. -/
def reordered (base variant : Bytes) : Bytes :=
  (sortedBlocks (rankedBlocks (splitBlocks base).length (splitBlocks variant)
    (anchorsOf (splitBlocks base) (splitBlocks variant)))).flatMap (·.block)

/-- The blocks as they are when they are taken in order from a list of as many blocks. -/
theorem map_getD_rankedBlocks (G : List (List Bytes)) (baseLength : ℕ)
    (anchors : List (Option ℕ)) :
    (rankedBlocks baseLength (G.map List.flatten) anchors).map (fun e => G.getD e.idx []) = G := by
  rw [rankedBlocks, List.map_map]
  change List.map ((fun i => G.getD i []) ∘ (Prod.snd : Bytes × ℕ → ℕ)) _ = G
  rw [← List.map_map, List.zipIdx_map_snd, List.length_map]
  refine List.ext_getElem (by simp) fun i h h' => ?_
  rw [List.getElem_map, List.getElem_range', Nat.zero_add, Nat.one_mul, List.getD_eq_getElem?_getD,
    List.getElem?_eq_getElem h', Option.getD_some]

/-- Blocks put into an order keep lines and blocks exactly if the last one is closed or stays. -/
theorem keeps_order_iff {gs : List (List Bytes)} {t : List Bytes}
    (hgs : ∀ g ∈ gs, IsClosed 0x0A isBlankSegment g) (ht : IsBlock 0x0A isBlankSegment t)
    {sorted : List RankedBlock}
    (hmem : ∀ e ∈ sorted, ∃ g, (gs ++ [t])[e.idx]? = some g ∧ e.block = g.flatten)
    (hperm : (sorted.map fun e => (gs ++ [t]).getD e.idx []).Perm (gs ++ [t])) :
    Paragraphs.Keeps 0x0A isBlankSegment (Paragraphs.textOf (gs ++ [t]))
        (sorted.flatMap (·.block)) ↔
      IsClosed 0x0A isBlankSegment t ∨ sorted.getLast?.map (·.idx) = some gs.length := by
  have htext : sorted.flatMap (·.block) =
      Paragraphs.textOf (sorted.map fun e => (gs ++ [t]).getD e.idx []) := by
    rw [Paragraphs.textOf, List.flatten_flatten, List.map_map, List.flatMap_def]
    refine congrArg List.flatten (List.map_congr_left fun e he => ?_)
    obtain ⟨g, hg, hflat⟩ := hmem e he
    rw [hflat, Function.comp, List.getD_eq_getElem?_getD, hg]
    rfl
  rw [htext, keeps_iff hgs ht hperm, List.getLast?_map]
  refine or_congr_right' fun hopen => ?_
  rcases hend : sorted.getLast? with _ | e
  · simp
  rw [Option.map_some, Option.map_some, Option.some_inj, Option.some_inj]
  constructor
  · intro heq
    obtain ⟨g, hg, -⟩ := hmem e (List.mem_of_getLast? hend)
    rw [List.getD_eq_getElem?_getD, hg, Option.getD_some] at heq
    subst heq
    have hidx := (List.getElem?_eq_some_iff.mp hg).1
    rw [List.length_append, List.length_singleton] at hidx
    by_contra hne'
    rw [List.getElem?_append_left (by omega)] at hg
    exact hopen (hgs g (List.mem_of_getElem? hg))
  · intro hidx
    rw [hidx, List.getD_eq_getElem?_getD, List.getElem?_concat_length, Option.getD_some]

theorem keeps_reordered_iff {base variant : Bytes} (hne : variant ≠ [])
    (hex : lastAnchor (anchorsOf (splitBlocks base) (splitBlocks variant)) ≠ none) :
    Paragraphs.Keeps 0x0A isBlankSegment variant (reordered base variant) ↔
      EndsBlank variant ∨ LastStays base variant := by
  obtain ⟨gs, t, rfl, hgs, ht⟩ : ∃ gs t, variant = Paragraphs.textOf (gs ++ [t]) ∧
      (∀ g ∈ gs, IsClosed 0x0A isBlankSegment g) ∧ IsBlock 0x0A isBlankSegment t :=
    exists_parts hne
  obtain ⟨p, hlast⟩ := Option.ne_none_iff_exists'.mp hex
  have hblocks : splitBlocks (Paragraphs.textOf (gs ++ [t])) = (gs ++ [t]).map List.flatten :=
    blocks_parts hgs ht
  have hlength : (splitBlocks (Paragraphs.textOf (gs ++ [t]))).length = gs.length + 1 := by
    rw [hblocks, List.length_map, List.length_append, List.length_singleton]
  have hinj (i i' a : ℕ)
      (h : (anchorsOf (splitBlocks base) (splitBlocks (Paragraphs.textOf (gs ++ [t]))))[i]? =
        some (some a))
      (h' : (anchorsOf (splitBlocks base) (splitBlocks (Paragraphs.textOf (gs ++ [t]))))[i']? =
        some (some a)) : i = i' :=
    (getElem?_anchorsOf.mp h).left_unique (getElem?_anchorsOf.mp h')
  have hranks : (∀ i < gs.length + 1, rankAt (splitBlocks base).length _ i ≤
      rankAt (splitBlocks base).length _ gs.length) ↔ _ :=
    ranks_le_iff (by rw [anchorsOf, List.length_map, hlength]) hinj hlast
  rw [endsBlank_iff hgs ht, ← forall_le_iff_lastStays hlast, ← hranks,
    ← getLast?_sortedBlocks_iff hlength, reordered]
  refine keeps_order_iff hgs ht (fun e he => ?_) ?_
  · have hblock := (mem_rankedBlocks.mp ((sortedBlocks_perm _).mem_iff.mp he)).1
    rw [hblocks, List.getElem?_map, Option.map_eq_some_iff] at hblock
    obtain ⟨g, hg, hflat⟩ := hblock
    exact ⟨g, hg, hflat.symm⟩
  · have hperm := (sortedBlocks_perm (rankedBlocks (splitBlocks base).length
      (splitBlocks (Paragraphs.textOf (gs ++ [t])))
      (anchorsOf (splitBlocks base) (splitBlocks (Paragraphs.textOf (gs ++ [t])))))).map
        fun e => (gs ++ [t]).getD e.idx []
    refine hperm.trans ?_
    rw [hblocks, map_getD_rankedBlocks]

theorem keeps_self (text : Bytes) : Paragraphs.Keeps 0x0A isBlankSegment text text :=
  ⟨List.Perm.refl _, List.Perm.refl _⟩

/-- A version or base that is not UTF-8 is left alone; else a blank line ends the version, or its
last block in common with the base is the last one of the base. -/
def MovesCleanly (base variant : Bytes) : Prop :=
  isUtf8 base = true → isUtf8 variant = true → EndsBlank variant ∨ LastStays base variant

theorem normalizeShiftedBlocks_eq (base variant : Bytes) :
    normalizeShiftedBlocks base variant =
      if !isUtf8 base || !isUtf8 variant then none
      else if (splitBlocks base).length < 2 || (splitBlocks variant).length < 2 then none
      else if movedAnchorCount (anchorsOf (splitBlocks base) (splitBlocks variant)) = 0 then none
      else if reordered base variant = variant then none
      else some (reordered base variant) := rfl

/-- With one block there is one anchor at most. -/
theorem lastStays_of_length_lt {base variant : Bytes}
    (h : (splitBlocks base).length < 2 ∨ (splitBlocks variant).length < 2) :
    LastStays base variant := by
  intro i j i' j' hij hij' _
  have hlt := hij.lt
  have hlt' := hij'.lt
  rcases h with h | h
  · omega
  · obtain rfl : i = i' := by omega
    exact (hij.right_unique hij').le

theorem lastAnchor_of_movedAnchorCount {anchors : List (Option ℕ)}
    (h : movedAnchorCount anchors ≠ 0) : lastAnchor anchors ≠ none := by
  intro hnone
  refine h ?_
  rw [movedAnchorCount, List.length_eq_zero_iff, List.filter_eq_nil_iff]
  rintro ⟨anchor, idx⟩ hmem
  rw [lastAnchor_eq_none.mp hnone anchor (List.fst_mem_of_mem_zipIdx hmem)]
  exact Bool.false_ne_true

theorem keeps_normalizeShiftedBlocks_iff (base variant : Bytes) :
    (∀ out, normalizeShiftedBlocks base variant = some out →
      Paragraphs.Keeps 0x0A isBlankSegment variant out) ↔ MovesCleanly base variant := by
  rw [normalizeShiftedBlocks_eq, MovesCleanly]
  split_ifs with hutf8 hfew hmoved hsame
  · refine ⟨fun _ hbase hvariant => ?_, fun _ => nofun⟩
    rw [hbase, hvariant] at hutf8
    exact absurd hutf8 Bool.false_ne_true
  · rw [Bool.or_eq_true, decide_eq_true_iff, decide_eq_true_iff] at hfew
    exact ⟨fun _ _ _ => .inr (lastStays_of_length_lt hfew), fun _ => nofun⟩
  · exact ⟨fun _ _ _ => .inr (lastStays_of_movedAnchorCount hmoved), fun _ => nofun⟩
  all_goals
    rw [Bool.or_eq_true, Bool.not_eq_true', Bool.not_eq_true', not_or, Bool.not_eq_false,
      Bool.not_eq_false] at hutf8
    have hne : variant ≠ [] := by
      rintro rfl
      exact hfew (by simp [splitBlocks, blocks, segments, blocksFrom])
    have hiff := keeps_reordered_iff hne (lastAnchor_of_movedAnchorCount hmoved)
    rw [imp_iff_right hutf8.1, imp_iff_right hutf8.2, ← hiff]
  · exact ⟨fun _ => by rw [hsame]; exact keeps_self variant, fun _ => nofun⟩
  · exact ⟨fun h => h _ rfl, fun h out hout => Option.some.inj hout ▸ h⟩

/-! ### The retried merge -/

/-- The lines of a text, without their line feeds. -/
def bareLines (text : Bytes) : List Bytes := (segments 0x0A text).map (lineText 0x0A)

/-- No line that one of the sides wrote is dropped or doubled in a merge, and no other line is
added. -/
def MergesLines (base ours theirs merged : Bytes) : Prop :=
  ∀ line, line ∉ bareLines base →
    (bareLines ours).count line ≤ (bareLines merged).count line ∧
    (bareLines theirs).count line ≤ (bareLines merged).count line ∧
    (bareLines merged).count line ≤ (bareLines ours).count line + (bareLines theirs).count line

/-- The version that a retried merge takes has the lines of the version. -/
theorem MovesCleanly.count_bareLines {base variant : Bytes} (h : MovesCleanly base variant)
    (line : Bytes) :
    (bareLines ((normalizeShiftedBlocks base variant).getD variant)).count line =
      (bareLines variant).count line := by
  rcases hout : normalizeShiftedBlocks base variant with _ | out
  · rfl
  · exact ((keeps_normalizeShiftedBlocks_iff base variant).mpr h out hout).1.count_eq line

/-- Moving the blocks of a version keeps its lines and its blocks exactly if the version is not
touched, or a blank line ends it, or its last block in common with the base is the last one of the
base. A retried merge of such versions merges the lines of the versions. -/
theorem normalizeShiftedBlocks_keeps_iff (base : Bytes) :
    (∀ variant, (∀ out, normalizeShiftedBlocks base variant = some out →
      Paragraphs.Keeps 0x0A isBlankSegment variant out) ↔ MovesCleanly base variant) ∧
    ∀ tools : MergeTools, tools.normalizeShiftedBlocks = normalizeShiftedBlocks →
      (∀ base ours theirs merged,
        tools.diff3MergeBytes base ours theirs = .ok (.clean merged) →
          MergesLines base ours theirs merged) →
      ∀ ours theirs merged, MovesCleanly base ours → MovesCleanly base theirs →
        retryWithShiftedAlignment tools base ours theirs = .ok (some merged) →
        MergesLines base ours theirs merged := by
  refine ⟨keeps_normalizeShiftedBlocks_iff base, ?_⟩
  intro tools hnormalize hdiff3 ours theirs merged hours htheirs hretry
  rw [retryWithShiftedAlignment, hnormalize] at hretry
  split_ifs at hretry
  · cases hretry
  · rcases hmerge : tools.diff3MergeBytes base ((normalizeShiftedBlocks base ours).getD ours)
      ((normalizeShiftedBlocks base theirs).getD theirs) with e | out | markers
    · rw [hmerge] at hretry
      cases hretry
    · rw [hmerge] at hretry
      cases hretry
      intro line hline
      have hmerges := hdiff3 _ _ _ _ hmerge line hline
      rwa [hours.count_bareLines, htheirs.count_bareLines] at hmerges
    · rw [hmerge] at hretry
      cases hretry

section Samples

/-- Tools that merge only what one side changed. -/
def oneSidedTools : MergeTools where
  diff3MergeBytes base ours theirs := .ok <|
    if ours = base then .clean theirs else if theirs = base then .clean ours else .conflict []
  normalizeShiftedBlocks := normalizeShiftedBlocks
  astMerge _ := none
  repo := sampleRepo

theorem oneSidedTools_mergesLines (base ours theirs merged : Bytes)
    (h : oneSidedTools.diff3MergeBytes base ours theirs = .ok (.clean merged)) :
    MergesLines base ours theirs merged := by
  intro line hline
  have hnone : (bareLines base).count line = 0 := List.count_eq_zero.mpr hline
  dsimp only [oneSidedTools] at h
  split_ifs at h with hours htheirs
  · cases h
    rw [hours, hnone]
    omega
  · cases h
    rw [htheirs, hnone]
    omega
  · cases h

/-- One side exchanges two paragraphs, the other one adds a third. -/
theorem normalizeShiftedBlocks_keeps_iff_exchanged :
    retryWithShiftedAlignment oneSidedTools "a\n\nb\n\n".toUTF8.toList "b\n\na\n\n".toUTF8.toList
      "a\n\nb\n\nc\n\n".toUTF8.toList = .ok (some "a\n\nb\n\nc\n\n".toUTF8.toList) ∧
    MergesLines "a\n\nb\n\n".toUTF8.toList "b\n\na\n\n".toUTF8.toList
      "a\n\nb\n\nc\n\n".toUTF8.toList "a\n\nb\n\nc\n\n".toUTF8.toList := by
  have hretry : retryWithShiftedAlignment oneSidedTools "a\n\nb\n\n".toUTF8.toList
      "b\n\na\n\n".toUTF8.toList "a\n\nb\n\nc\n\n".toUTF8.toList =
        .ok (some "a\n\nb\n\nc\n\n".toUTF8.toList) := by decide +kernel
  refine ⟨hretry, (normalizeShiftedBlocks_keeps_iff _).2 oneSidedTools rfl
    oneSidedTools_mergesLines _ _ _ ?_ ?_ hretry⟩
  · exact fun _ _ => .inl ⟨[0x0A], by decide +kernel, by decide +kernel, rfl⟩
  · exact fun _ _ => .inl ⟨[0x0A], by decide +kernel, by decide +kernel, rfl⟩

/-- A paragraph without a line feed at its end is moved to the front: its line becomes one with the
next line. -/
theorem normalizeShiftedBlocks_glues :
    normalizeShiftedBlocks "a\n\nb\n\nc\n".toUTF8.toList "b\n\nc\n\na".toUTF8.toList =
      some "ab\n\nc\n\n".toUTF8.toList ∧
    ¬ Paragraphs.Keeps 0x0A isBlankSegment "b\n\nc\n\na".toUTF8.toList
      "ab\n\nc\n\n".toUTF8.toList := by
  refine ⟨by decide +kernel, fun h => ?_⟩
  exact absurd h.1 (by decide +kernel)

end Samples

end Maw
