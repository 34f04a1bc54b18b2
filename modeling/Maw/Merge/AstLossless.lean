import Maw.Merge.AstDocument

/-!
# What the structured merge keeps

A clean merge is to have every item as the variants that changed it have it, all other items as
the base has them, and every text between items that a variant changed as that variant has it. The
code matches items by a key that several may share, looks at the text between them in variants
with as many items as the base only, and not at all if no item was changed, and takes along with
an added item no more than comments and attributes in front of it.

## Main definitions

* `KeepsAll`, `LosesNothing` — what a clean merge is to keep.
* `Handled` — the merges that the code handles.

## Main results

* `merge_losesNothing` — a merge that is handled loses nothing.
* `comments_lost` — a merge of two comments returns the base.
-/

namespace Maw.Ast

open Document

/-! ### What is to be kept -/

section Kept

variable (base : SourceDocument) (variants : List SourceDocument)

/-- A merged file has the items and the texts between them that the variants changed as they have
them, and the other items as the base has them; nothing but text between items stands between its
items. -/
structure KeepsAll (merged : SourceDocument) : Prop where
  changed : ∀ v ∈ variants, ∀ k n,
    (v.item k n).map Entry.text ≠ (base.item k n).map Entry.text →
      (merged.item k n).map Entry.text = (v.item k n).map Entry.text
  unchanged : ∀ k n,
    (∀ v ∈ variants, (v.item k n).map Entry.text = (base.item k n).map Entry.text) →
      (merged.item k n).map Entry.text = (base.item k n).map Entry.text
  gaps : ∀ v ∈ variants, ∀ k n e e', base.item k n = some e → v.item k n = some e' →
    e'.gap ≠ e.gap → (merged.item k n).map Entry.gap = some e'.gap
  /-- The text in front of an added item comes before it, possibly after other text. -/
  added : ∀ v ∈ variants, ∀ k n e', base.item k n = none → v.item k n = some e' →
    ∃ es e es', merged.entries = es ++ e :: es' ∧ e.key = k ∧
      (es.filter fun e => e.key = k).length = n ∧ e'.gap <:+ textOf es ++ e.gap
  trailing : ∀ v ∈ variants, v.trailing ≠ base.trailing → merged.trailing = v.trailing
  between : ∀ gap ∈ merged.gaps, MadeOf
    (fun piece => piece = [0x0A] ∨ ∃ doc ∈ base :: variants, ∃ gap ∈ doc.gaps, piece <:+ gap) gap

/-- A text can be read as a merged file that keeps everything. -/
def LosesNothing (out : Bytes) : Prop := ∃ merged, merged.text = out ∧ KeepsAll base variants merged

/-! ### What is handled -/

/-- The items with a key are the same, or there are none, or they are as many, at least one, all
with one text, which is not that of the last one of the base. -/
def KeyHandled (baseTexts variantTexts : List Bytes) : Prop :=
  variantTexts = baseTexts ∨ variantTexts = [] ∨
    ∃ text, baseTexts.getLast? ≠ some text ∧
      variantTexts = List.replicate (max 1 baseTexts.length) text

/-- The text of the last use of the base that is left. -/
def anchorText : Option Bytes :=
  (base.entries.reverse.find? fun e =>
    isUse e.key.kind && !(outcome base variants e.key).isDrop).map Entry.text

/-- The place behind the first text in the merged body that is that of this use. -/
def usePlace : Option ℕ := do
  let anchor ← anchorText base variants
  let start ← firstMatch anchor (mergedBody base variants).text
  return start + anchor.length

/-- The items with a key are put behind a use, if they are added. -/
def PlacedAtUse (k : ItemKey) : Prop := isUse k.kind = true ∧ usePlace base variants ≠ none

instance (k : ItemKey) : Decidable (PlacedAtUse base variants k) :=
  inferInstanceAs (Decidable (_ ∧ _))

end Kept

/-- The first variant that added items with a key, and the last one of them. -/
def adder (parsed : ParsedVariants) (k : ItemKey) : Option (WorkspaceId × TopLevelItem) :=
  parsed.findSome? fun v => (itemMap v.2 k).map fun item => (v.1.1, item)

/-- The comments and attributes in front of an added item in the variant of its workspace. -/
def triviaOf (parsed : ParsedVariants) (added : WorkspaceId × TopLevelItem) : Option Bytes :=
  leadingTriviaOf (parsed.map Prod.fst) added.1 added.2

section Handled

variable (base : SourceDocument) (parsed : ParsedVariants)

/-- The items with a key are appended. -/
def Appended (k : ItemKey) : Prop :=
  base.texts k = [] ∧ adder parsed k ≠ none ∧ ¬PlacedAtUse base (parsed.map variantDocument) k

/-- The items with a key are appended before those with another one. -/
def AppendedBefore (k k' : ItemKey) : Prop :=
  Appended base parsed k ∧ Appended base parsed k' ∧ ∃ a a', adder parsed k = some a ∧
    adder parsed k' = some a' ∧
      toLex (a.1.name, a.2.startByte) < toLex (a'.1.name, a'.2.startByte)

/-- The merges that the code handles. -/
structure Handled : Prop where
  keys : ∀ v ∈ parsed, ∀ k, KeyHandled (base.texts k) ((variantDocument v).texts k)
  /-- Text in front of an item of the base was changed only as it is by the deletion of items. -/
  gaps : ∀ v ∈ parsed, ∀ k n e e', base.item k n = some e →
    (variantDocument v).item k n = some e' → e'.gap ≠ e.gap →
      ((mergedBody base (parsed.map variantDocument)).item k n).map Entry.gap = some e'.gap
  trailing : ∀ v ∈ parsed, (variantDocument v).trailing ≠ base.trailing →
    ((∃ k, Appended base parsed k) → (variantDocument v).trailing = [0x0A]) ∧
      ((∀ k, ¬Appended base parsed k) →
        (variantDocument v).trailing = (mergedBody base (parsed.map variantDocument)).trailing)
  /-- The place that added uses are put at is the end of an item. -/
  uses : ∀ place, usePlace base (parsed.map variantDocument) = some place →
    (∃ k, base.texts k = [] ∧ adder parsed k ≠ none ∧ isUse k.kind = true) →
      ∃ es es', (mergedBody base (parsed.map variantDocument)).entries = es ++ es' ∧
        (textOf es).length = place
  /-- In front of an added use there is at most a line break. -/
  addedUse : ∀ v ∈ parsed, ∀ k e, base.texts k = [] → (variantDocument v).item k 0 = some e →
    PlacedAtUse base (parsed.map variantDocument) k → e.gap <:+ [0x0A]
  /-- In front of any other added item there is at most an empty line and what is taken along. -/
  added : ∀ v ∈ parsed, ∀ k e, Appended base parsed k → (variantDocument v).item k 0 = some e →
    ∀ a trivia, adder parsed k = some a → triviaOf parsed a = some trivia →
      (((mergedBody base (parsed.map variantDocument)).text ≠ [] ∨
          ∃ k', AppendedBefore base parsed k' k) ∧ e.gap <:+ [0x0A, 0x0A] ++ trivia) ∨
        (∀ k', Appended base parsed k' → k' ≠ k → AppendedBefore base parsed k k') ∧
          e.gap <:+ breakParagraph (mergedBody base (parsed.map variantDocument)).trailing ++ trivia
  /-- What is taken along is text between items. -/
  trivia : ∀ k a trivia, Appended base parsed k → adder parsed k = some a →
    triviaOf parsed a = some trivia →
      ∃ v ∈ parsed, ∃ gap ∈ (variantDocument v).gaps, trivia <:+ gap

end Handled

/-! ### Added items -/

section Added

variable {base : Bytes} {baseItems : List TopLevelItem} {parsed : ParsedVariants}

theorem keyedFrom_kind {items : List TopLevelItem} {index : ℕ} :
    ∀ entry ∈ keyedFrom index items, entry.2.kind = entry.1.kind := by
  induction items generalizing index with
  | nil => exact nofun
  | cons item items ih =>
    intro entry hentry
    rcases List.mem_cons.mp hentry with rfl | hentry
    · exact (kind_identityKey item index).symm
    · exact ih entry hentry

theorem kind_of_itemMap {items : List TopLevelItem} {k : ItemKey} {item : TopLevelItem}
    (h : itemMap items k = some item) : item.kind = k.kind := by
  obtain ⟨entry, hentry, rfl⟩ := Option.map_eq_some_iff.mp h
  obtain rfl : entry.1 = k := by simpa using List.find?_some hentry
  exact keyedFrom_kind entry (List.mem_reverse.mp (List.mem_of_find?_eq_some hentry))

theorem texts_eq_nil_iff {source : Bytes} {items : List TopLevelItem} {k : ItemKey} :
    (documentOf source items).texts k = [] ↔ itemMap items k = none := by
  rw [texts_documentOf, List.map_eq_nil_iff, List.filter_eq_nil_iff, itemMap_eq_none_iff]
  simp

/-- Items that the base has not are resolved as the first variant has them. -/
theorem get_resolved_of_none
    (hconflicts : conflictsOf (constraintsByItem (constraintsOf baseItems parsed)) = [])
    {k : ItemKey} (hk : itemMap baseItems k = none) :
    (resolved baseItems parsed).get k =
      (adder parsed k).map fun a => ⟨a.1, .added k a.2⟩ := by
  rw [get_resolved hconflicts, List.head?_filterMap, adder, List.map_findSome?]
  congr 1
  funext v
  unfold changeAt
  rw [hk, Function.comp_apply]
  cases itemMap v.2 k <;> rfl

/-- The items that the merge adds are those that the base has not, as the first variant has
them. -/
theorem filter_addedResolutionItems
    (hconflicts : conflictsOf (constraintsByItem (constraintsOf baseItems parsed)) = [])
    (k : ItemKey) :
    ((addedResolutionItems (resolved baseItems parsed)).filter fun a => a.2.1 = k) =
      if itemMap baseItems k = none then
        ((adder parsed k).map fun a => (a.1, k, a.2)).toList else [] := by
  have hget : ((resolved baseItems parsed).get k).bind (fun c => addedItem (k, c)) =
      if itemMap baseItems k = none then
        (adder parsed k).map fun a => (a.1, k, a.2) else none := by
    split_ifs with hk
    · rw [get_resolved_of_none hconflicts hk]
      cases adder parsed k <;> rfl
    · cases hget : (resolved baseItems parsed).get k with
      | none => rfl
      | some c =>
        obtain ⟨ws, change⟩ := c
        cases change with
        | added key item =>
          exact absurd (itemMap_of_get_resolved hconflicts (by rw [hget]; rfl)).2 hk
        | modified => rfl
        | deleted => rfl
  have hfilter := filter_filterMap_resolutionsOf (fun a => a.2.1) (g := addedItem) (by
    rintro ⟨k', ws, change⟩ a hkey ha
    cases change with
    | added key item =>
      obtain rfl := Option.some_inj.mp ha
      exact hkey
    | modified => cases ha
    | deleted => cases ha) hconflicts k
  have hperm : ((addedResolutionItems (resolved baseItems parsed)).filter fun a => a.2.1 = k).Perm
      (((resolved baseItems parsed).filterMap addedItem).filter fun a => a.2.1 = k) :=
    (List.perm_insertionSort _ _).filter _
  rw [hfilter, hget] at hperm
  split_ifs at hperm ⊢ with hk
  · cases hadder : adder parsed k with
    | none => simpa [hadder] using hperm
    | some a => simpa [hadder] using hperm
  · simpa using hperm

theorem mem_addedResolutionItems
    (hconflicts : conflictsOf (constraintsByItem (constraintsOf baseItems parsed)) = [])
    {a : WorkspaceId × ItemKey × TopLevelItem} :
    a ∈ addedResolutionItems (resolved baseItems parsed) ↔
      itemMap baseItems a.2.1 = none ∧ adder parsed a.2.1 = some (a.1, a.2.2) := by
  obtain ⟨ws, k, item⟩ := a
  have hmem : (ws, k, item) ∈ addedResolutionItems (resolved baseItems parsed) ↔
      (ws, k, item) ∈ (addedResolutionItems (resolved baseItems parsed)).filter
        fun a => a.2.1 = k := by simp
  rw [hmem, filter_addedResolutionItems hconflicts]
  split_ifs with hk
  · simp [hk]
  · simp [hk]

end Added

/-! ### Uses -/

section Uses

variable {base : Bytes} {baseItems : List TopLevelItem} {parsed : ParsedVariants}

/-- The use that others are put behind has the text that it has in the document. -/
theorem map_content_lastSurvivingUse (base : Bytes)
    (hconflicts : conflictsOf (constraintsByItem (constraintsOf baseItems parsed)) = []) :
    (lastSurvivingUse baseItems (resolved baseItems parsed)).map TopLevelItem.content =
      anchorText (documentOf base baseItems) (parsed.map variantDocument) := by
  have hdrop (k : ItemKey) :
      ((resolved baseItems parsed).get k).any (fun c => c.change.isDeleted) =
        (outcome (documentOf base baseItems) (parsed.map variantDocument) k).isDrop := by
    rw [← outcomeOf_get_resolved base hconflicts k]
    cases (resolved baseItems parsed).get k with
    | none => rfl
    | some c =>
      obtain ⟨ws, change⟩ := c
      cases change <;> rfl
  have hfind (p : ItemKey → Bool) :
      ((documentOf base baseItems).entries.reverse.find? fun e => p e.key).map Entry.text =
        ((keyedFrom 0 baseItems).reverse.find? fun entry => p entry.1).map fun entry =>
          entry.2.content := by
    have h := congrArg (fun l => (l.reverse.find? fun q : ItemKey × Bytes => p q.1).map Prod.snd)
      (map_entriesFrom base 0 0 baseItems)
    simpa [documentOf, ← List.map_reverse, List.find?_map, Function.comp_def] using h
  unfold lastSurvivingUse anchorText
  rw [hfind fun k => isUse k.kind &&
    !(outcome (documentOf base baseItems) (parsed.map variantDocument) k).isDrop, Option.map_map]
  have hcongr : ((keyedFrom 0 baseItems).reverse.find? fun entry => isUse entry.2.kind &&
        !((resolved baseItems parsed).get entry.1).any fun c => c.change.isDeleted) =
      (keyedFrom 0 baseItems).reverse.find? fun entry => isUse entry.1.kind &&
        !(outcome (documentOf base baseItems) (parsed.map variantDocument) entry.1).isDrop := by
    rw [← List.head?_filter, ← List.head?_filter]
    refine congrArg List.head? (List.filter_congr fun entry hentry => ?_)
    rw [keyedFrom_kind entry (List.mem_reverse.mp hentry), hdrop]
  rw [← hcongr]
  rfl

/-- An added use as an item behind a line break. -/
def useEntry (a : WorkspaceId × ItemKey × TopLevelItem) : Entry ItemKey UInt8 :=
  ⟨a.2.1, [0x0A], a.2.2.content⟩

theorem textOf_map_useEntry (uses : List (WorkspaceId × ItemKey × TopLevelItem)) :
    textOf (uses.map useEntry) = uses.flatMap fun a => 0x0A :: a.2.2.content := by
  induction uses with
  | nil => rfl
  | cons a uses ih =>
    rw [List.map_cons, textOf_cons, ih]
    rfl

/-- Added uses are put between two items of the merged body, and become items of it. -/
theorem insertUses_eq (hhandled : Handled (documentOf base baseItems) parsed)
    (hconflicts : conflictsOf (constraintsByItem (constraintsOf baseItems parsed)) = []) :
    let body := mergedBody (documentOf base baseItems) (parsed.map variantDocument)
    let added := addedResolutionItems (resolved baseItems parsed)
    let placed := PlacedAtUse (documentOf base baseItems) (parsed.map variantDocument)
    ∀ r, insertUses (lastSurvivingUse baseItems (resolved baseItems parsed)) added body.text =
        some r →
      ∃ es es', body.entries = es ++ es' ∧
        r = ((⟨es ++ (added.filter fun a => placed a.2.1).map useEntry ++ es', body.trailing⟩ :
          SourceDocument).text, added.filter fun a => ¬placed a.2.1) := by
  intro body added placed r hinsert
  have hkind {a : WorkspaceId × ItemKey × TopLevelItem} (ha : a ∈ added) :
      isUse a.2.2.kind = isUse a.2.1.kind := by
    obtain ⟨v, -, hv⟩ := List.exists_of_findSome?_eq_some
      ((mem_addedResolutionItems hconflicts).mp ha).2
    obtain ⟨item, hitem, heq⟩ := Option.map_eq_some_iff.mp hv
    obtain rfl : item = a.2.2 := congrArg Prod.snd heq
    rw [kind_of_itemMap hitem]
  have hanchor := map_content_lastSurvivingUse base hconflicts
  -- If nothing is put behind a use, the text and the items are given back.
  have hkeep (hnone : ∀ a ∈ added, ¬placed a.2.1) (hr : (body.text, added) = r) :
      ∃ es es', body.entries = es ++ es' ∧
        r = ((⟨es ++ (added.filter fun a => placed a.2.1).map useEntry ++ es', body.trailing⟩ :
          SourceDocument).text, added.filter fun a => ¬placed a.2.1) := by
    have huses : added.filter (fun a => placed a.2.1) = [] :=
      List.filter_eq_nil_iff.mpr fun a ha => by simpa using hnone a ha
    have hrest : added.filter (fun a => ¬placed a.2.1) = added :=
      List.filter_eq_self.mpr fun a ha => by simpa using hnone a ha
    refine ⟨body.entries, [], (List.append_nil _).symm, ?_⟩
    rw [← hr, huses, hrest, List.map_nil, List.append_nil, List.append_nil]
  cases hlast : lastSurvivingUse baseItems (resolved baseItems parsed) with
  | none =>
    rw [hlast] at hanchor hinsert
    refine hkeep (fun a ha hplaced => hplaced.2 ?_) (Option.some_inj.mp hinsert)
    rw [usePlace, ← hanchor]
    rfl
  | some anchor =>
    rw [hlast] at hanchor hinsert
    have hplace : usePlace (documentOf base baseItems) (parsed.map variantDocument) =
        (firstMatch anchor.content body.text).map (· + anchor.content.length) := by
      rw [usePlace, ← hanchor]
      show (firstMatch anchor.content body.text).bind
        (fun start => some (start + anchor.content.length)) = _
      cases firstMatch anchor.content body.text <;> rfl
    by_cases huses : added.filter (fun a => isUse a.2.2.kind) = []
    · simp only [insertUses, if_pos huses] at hinsert
      refine hkeep (fun a ha hplaced => ?_) (Option.some_inj.mp hinsert)
      exact List.filter_eq_nil_iff.mp huses a ha (by rw [hkind ha]; exact hplaced.1)
    · have hcontent : anchor.content ≠ [] := by
        intro hcontent
        simp [insertUses, if_neg huses, hcontent] at hinsert
      cases hmatch : firstMatch anchor.content body.text with
      | none =>
        simp only [insertUses, if_neg huses, if_neg hcontent, hmatch] at hinsert
        refine hkeep (fun a ha hplaced => hplaced.2 ?_) (Option.some_inj.mp hinsert)
        rw [hplace, hmatch]
        rfl
      | some start =>
        have hplaced {a : WorkspaceId × ItemKey × TopLevelItem} (ha : a ∈ added) :
            placed a.2.1 ↔ isUse a.2.2.kind = true := by
          rw [hkind ha]
          exact and_iff_left (by rw [hplace, hmatch]; nofun)
        obtain ⟨a, ha⟩ := List.exists_mem_of_ne_nil _ huses
        obtain ⟨ha, hause⟩ := List.mem_filter.mp ha
        obtain ⟨hnone, hadder⟩ := (mem_addedResolutionItems hconflicts).mp ha
        obtain ⟨es, es', hes, hlength⟩ := hhandled.uses _ (hplace.trans (by rw [hmatch]; rfl))
          ⟨a.2.1, texts_eq_nil_iff.mpr hnone, by simp [hadder], by rw [← hkind ha]; exact hause⟩
        have htext : body.text = textOf es ++ (textOf es' ++ body.trailing) := by
          rw [Document.text, hes, textOf_append, List.append_assoc]
        have hfilter : added.filter (fun a => placed a.2.1) =
            added.filter fun a => isUse a.2.2.kind :=
          List.filter_congr fun a ha => by simp [hplaced ha]
        have hrest : added.filter (fun a => ¬placed a.2.1) =
            added.filter fun a => !isUse a.2.2.kind :=
          List.filter_congr fun a ha => by simp [hplaced ha]
        refine ⟨es, es', hes, ?_⟩
        simp only [insertUses, if_neg huses, if_neg hcontent, hmatch] at hinsert
        rw [← Option.some_inj.mp hinsert, hfilter, hrest, htext, List.take_left' hlength,
          List.drop_left' hlength, Document.text, textOf_append, textOf_append,
          textOf_map_useEntry, List.append_assoc, List.append_assoc, List.append_assoc]

end Uses

/-! ### Appended items -/

section Appends

/-- What is added to a text for an empty line at its end. -/
def paragraphBreak (result : Bytes) : Bytes :=
  if result = [] ∨ [0x0A, 0x0A] <:+ result then []
  else if [0x0A] <:+ result then [0x0A] else [0x0A, 0x0A]

theorem singleton_suffix_iff {b : UInt8} {bytes : Bytes} :
    [b] <:+ bytes ↔ ∃ bytes', bytes = bytes' ++ [b] :=
  ⟨fun ⟨bytes', h⟩ => ⟨bytes', h.symm⟩, fun ⟨bytes', h⟩ => ⟨bytes', h.symm⟩⟩

theorem breakParagraph_eq (result : Bytes) :
    breakParagraph result = result ++ paragraphBreak result := by
  unfold breakParagraph breakLine paragraphBreak
  by_cases hnil : result = []
  · simp [hnil]
  by_cases htwo : [0x0A, 0x0A] <:+ result
  · have hone : [0x0A] <:+ result := (List.suffix_cons 0x0A [0x0A]).trans htwo
    simp [hnil, htwo, hone]
  by_cases hone : [0x0A] <:+ result
  · simp [hnil, htwo, hone]
  · have hnot : ¬[0x0A, 0x0A] <:+ result ++ [0x0A] := by
      rintro ⟨bytes, h⟩
      refine hone ⟨bytes, ?_⟩
      have h' : (bytes ++ [0x0A]) ++ [0x0A] = result ++ [0x0A] := by simpa using h
      exact List.append_cancel_right h'
    simp [hnil, hone, htwo, hnot]

theorem suffix_breakParagraph {result : Bytes} (h : result ≠ []) :
    [0x0A, 0x0A] <:+ breakParagraph result := by
  rw [breakParagraph_eq]
  unfold paragraphBreak
  split_ifs with hend hone
  · rw [List.append_nil]
    exact hend.resolve_left h
  · obtain ⟨bytes, rfl⟩ := singleton_suffix_iff.mp hone
    exact ⟨bytes, by simp⟩
  · exact List.suffix_append ..

/-- A text that ends with another one ends with it also when both are followed by an empty line. -/
theorem breakParagraph_suffix (front : Bytes) (result : Bytes) :
    breakParagraph result <:+ breakParagraph (front ++ result) := by
  by_cases hnil : result = []
  · rw [hnil]
    exact List.nil_suffix
  by_cases htwo : [0x0A, 0x0A] <:+ result
  · have htwo' : [0x0A, 0x0A] <:+ front ++ result := htwo.trans (List.suffix_append ..)
    rw [breakParagraph_eq, breakParagraph_eq, paragraphBreak, paragraphBreak, if_pos (.inr htwo),
      if_pos (.inr htwo'), List.append_nil, List.append_nil]
    exact List.suffix_append ..
  by_cases hone : [0x0A] <:+ result
  · have hresult : breakParagraph result = result ++ [0x0A] := by
      rw [breakParagraph_eq, paragraphBreak, if_neg (by simp [hnil, htwo]), if_pos hone]
    obtain ⟨bytes, rfl⟩ := singleton_suffix_iff.mp hone
    rw [hresult]
    by_cases htwo' : [0x0A, 0x0A] <:+ front ++ (bytes ++ [0x0A])
    · -- The text is one line break, and the text in front of it ends with another one.
      have hlength : bytes.length + 1 < 2 := by
        by_contra hge
        refine htwo (List.suffix_of_suffix_length_le htwo' (List.suffix_append ..) ?_)
        simpa using not_lt.mp hge
      obtain rfl : bytes = [] := List.length_eq_zero_iff.mp (by omega)
      exact suffix_breakParagraph (by simp)
    · rw [breakParagraph_eq, paragraphBreak, if_neg (by simp [htwo']),
        if_pos ((List.suffix_append ..).trans (List.suffix_append ..))]
      exact ⟨front, by simp⟩
  · have hlength : 1 ≤ result.length := List.length_pos_iff.mpr hnil
    have hone' : ¬[0x0A] <:+ front ++ result := fun h =>
      hone (List.suffix_of_suffix_length_le h (List.suffix_append ..) hlength)
    have htwo' : ¬[0x0A, 0x0A] <:+ front ++ result := fun h =>
      hone' ((List.suffix_cons 0x0A [0x0A]).trans h)
    rw [breakParagraph_eq, breakParagraph_eq, paragraphBreak, paragraphBreak,
      if_neg (by simp [hnil, htwo]), if_neg hone, if_neg (by simp [hnil, htwo']), if_neg hone']
    exact ⟨front, by simp⟩

/-- Append items to a document, with what belongs in front of them. -/
inductive Appends (parsed : ParsedVariants) :
    SourceDocument → List (WorkspaceId × ItemKey × TopLevelItem) → SourceDocument → Prop
  | nil (doc : SourceDocument) : Appends parsed doc [] doc
  | cons {doc doc' : SourceDocument} {a : WorkspaceId × ItemKey × TopLevelItem}
      {as : List (WorkspaceId × ItemKey × TopLevelItem)} {trivia : Bytes}
      (htrivia : triviaOf parsed (a.1, a.2.2) = some trivia)
      (h : Appends parsed ⟨doc.entries ++ [⟨a.2.1, doc.trailing ++ paragraphBreak doc.text ++ trivia,
        a.2.2.content⟩], [0x0A]⟩ as doc') : Appends parsed doc (a :: as) doc'

variable {parsed : ParsedVariants} {doc doc' : SourceDocument}
  {as : List (WorkspaceId × ItemKey × TopLevelItem)}

theorem appends_of_foldlM {out : Bytes}
    (h : as.foldlM (appendItem (parsed.map Prod.fst)) doc.text = some out) :
    ∃ doc', Appends parsed doc as doc' ∧ doc'.text = out := by
  induction as generalizing doc with
  | nil => exact ⟨doc, .nil doc, Option.some_inj.mp h⟩
  | cons a as ih =>
    rw [List.foldlM_cons] at h
    obtain ⟨result, hresult, h⟩ := Option.bind_eq_some_iff.mp h
    obtain ⟨trivia, htrivia, rfl⟩ := Option.map_eq_some_iff.mp hresult
    have htext : breakParagraph doc.text ++ trivia ++ a.2.2.content ++ [0x0A] =
        (⟨doc.entries ++ [⟨a.2.1, doc.trailing ++ paragraphBreak doc.text ++ trivia,
          a.2.2.content⟩], [0x0A]⟩ : SourceDocument).text := by
      rw [breakParagraph_eq]
      simp [Document.text]
    rw [htext] at h
    obtain ⟨doc', hdoc', hout⟩ := ih h
    exact ⟨doc', .cons htrivia hdoc', hout⟩

namespace Appends

/-- The items come behind those that were there. -/
theorem entries (h : Appends parsed doc as doc') : ∃ es, doc'.entries = doc.entries ++ es ∧
    es.map (fun e => (e.key, e.text)) = as.map fun a => (a.2.1, a.2.2.content) := by
  induction h with
  | nil => exact ⟨[], by simp⟩
  | cons htrivia h ih =>
    obtain ⟨es, hes, hmap⟩ := ih
    refine ⟨_ :: es, by rw [hes, List.append_assoc]; rfl, ?_⟩
    rw [List.map_cons, hmap, List.map_cons]

theorem trailing (h : Appends parsed doc as doc') :
    doc'.trailing = if as = [] then doc.trailing else [0x0A] := by
  induction h with
  | nil => rfl
  | @cons doc doc' a as trivia htrivia h ih =>
    rw [ih, if_neg (List.cons_ne_nil _ _)]
    split_ifs <;> rfl

/-- The text between the items comes from that which was there, line breaks and what is taken
along. -/
theorem gaps {parts : Bytes → Prop} (hbreak : parts [0x0A])
    (h : Appends parsed doc as doc')
    (htrivias : ∀ a ∈ as, ∀ trivia, triviaOf parsed (a.1, a.2.2) = some trivia → parts trivia)
    (hdoc : ∀ gap ∈ doc.gaps, MadeOf parts gap) : ∀ gap ∈ doc'.gaps, MadeOf parts gap := by
  induction h with
  | nil => exact hdoc
  | @cons doc doc' a as trivia htrivia h ih =>
    refine ih (fun a' ha' => htrivias a' (List.mem_cons_of_mem _ ha')) ?_
    have hbreak' : MadeOf parts [0x0A] := .of hbreak
    have hpar : MadeOf parts (paragraphBreak doc.text) := by
      unfold paragraphBreak
      split_ifs
      · exact .nil
      · exact hbreak'
      · exact hbreak'.append hbreak'
    have htrailing : MadeOf parts doc.trailing := hdoc _ (by simp [Document.gaps])
    have htrivia' : MadeOf parts trivia := .of (htrivias a List.mem_cons_self trivia htrivia)
    intro gap hgap
    simp only [Document.gaps, List.map_append, List.map_cons, List.map_nil, List.mem_append,
      List.mem_singleton] at hgap
    rcases hgap with (hgap | rfl) | rfl
    · exact hdoc gap (List.mem_append_left _ hgap)
    · exact (htrailing.append hpar).append htrivia'
    · exact .of hbreak

/-- Where an appended item stands, and what it stands behind. -/
theorem placed (h : Appends parsed doc as doc') {a : WorkspaceId × ItemKey × TopLevelItem}
    (ha : a ∈ as) : ∃ es e es' trivia, doc'.entries = es ++ e :: es' ∧ e.key = a.2.1 ∧
      triviaOf parsed (a.1, a.2.2) = some trivia ∧
      (doc.text ≠ [] ∨ as.head? ≠ some a → [0x0A, 0x0A] ++ trivia <:+ textOf es ++ e.gap) ∧
      (as.head? = some a → breakParagraph doc.text ++ trivia <:+ textOf es ++ e.gap) := by
  induction h with
  | nil => exact absurd ha List.not_mem_nil
  | @cons doc doc' a' as trivia htrivia h ih =>
    by_cases heq : a = a'
    · subst heq
      obtain ⟨es, hes, -⟩ := h.entries
      have htext : textOf doc.entries ++ (doc.trailing ++ paragraphBreak doc.text ++ trivia) =
          breakParagraph doc.text ++ trivia := by
        rw [breakParagraph_eq, Document.text]
        simp only [List.append_assoc]
      refine ⟨doc.entries, _, es, trivia, by rw [hes, List.append_assoc]; rfl, rfl, htrivia, ?_, ?_⟩
      · intro hor
        rw [htext]
        have hne : doc.text ≠ [] := hor.resolve_right (by simp)
        obtain ⟨bytes, hbytes⟩ := suffix_breakParagraph hne
        exact ⟨bytes, by rw [← hbytes, List.append_assoc]⟩
      · intro
        rw [htext]
    · obtain ⟨es, e, es', trivia', hentries, hkey, htrivia', htwo, -⟩ :=
        ih ((List.mem_cons.mp ha).resolve_left heq)
      refine ⟨es, e, es', trivia', hentries, hkey, htrivia', fun _ => htwo (.inl ?_), ?_⟩
      · simp [Document.text]
      · intro hhead
        exact absurd (Option.some_inj.mp hhead).symm heq

end Appends

end Appends

/-! ### The merged file -/

section Merged

variable {base : Bytes} {baseItems : List TopLevelItem} {parsed : ParsedVariants}

/-- Of a variant with other items with a key than the base also the last one is another. -/
theorem lastText_ne_of_keyHandled {bd vd : SourceDocument} {k : ItemKey}
    (hkey : KeyHandled (bd.texts k) (vd.texts k)) (hne : vd.texts k ≠ bd.texts k) :
    lastText vd k ≠ lastText bd k := by
  unfold lastText
  rcases hkey with h | h | ⟨text, hlast, h⟩
  · exact absurd h hne
  · rw [h, List.getLast?_nil]
    intro hnone
    exact hne (h.trans (List.getLast?_eq_none_iff.mp hnone.symm).symm)
  · rw [h, List.getLast?_replicate, if_neg (by omega)]
    exact Ne.symm hlast

/-- A variant adds at most one item with a key, and only if the base has none. -/
theorem added_of_keyHandled {bd vd : SourceDocument} {k : ItemKey} {n : ℕ}
    {e : Entry ItemKey UInt8} (hkey : KeyHandled (bd.texts k) (vd.texts k))
    (hnone : bd.item k n = none) (he : vd.item k n = some e) :
    bd.texts k = [] ∧ n = 0 ∧ (vd.texts k).length = 1 := by
  have hb := map_text_item bd k n
  have hv := map_text_item vd k n
  rw [hnone, Option.map_none] at hb
  rw [he, Option.map_some] at hv
  rcases hkey with h | h | ⟨text, -, h⟩
  · rw [h, ← hb] at hv
    cases hv
  · rw [h] at hv
    cases hv
  · have hle := List.getElem?_eq_none_iff.mp hb.symm
    have hlt := (List.getElem?_eq_some_iff.mp hv.symm).1
    rw [h, List.length_replicate] at hlt
    have hzero : (bd.texts k).length = 0 := by omega
    refine ⟨List.length_eq_zero_iff.mp hzero, by omega, ?_⟩
    rw [h, List.length_replicate, hzero]
    rfl

theorem map_fst_of_mapM {α β : Type*} {f : α → Option β} {l : List α} {l' : List (α × β)}
    (h : (l.mapM fun a => (f a).map fun b => (a, b)) = some l') : l'.map Prod.fst = l := by
  induction l generalizing l' with
  | nil =>
    obtain rfl := Option.some_inj.mp h
    rfl
  | cons a l ih =>
    rw [List.mapM_cons] at h
    obtain ⟨p, hp, h⟩ := Option.bind_eq_some_iff.mp h
    obtain ⟨ps, hps, h⟩ := Option.bind_eq_some_iff.mp h
    obtain ⟨b, -, rfl⟩ := Option.map_eq_some_iff.mp hp
    obtain rfl := Option.some_inj.mp h
    rw [List.map_cons, ih hps]

theorem adder_eq_none_iff {k : ItemKey} :
    adder parsed k = none ↔ ∀ v ∈ parsed, itemMap v.2 k = none := by
  simp [adder]

theorem adder_eq_some {k : ItemKey} {a : WorkspaceId × TopLevelItem}
    (h : adder parsed k = some a) : ∃ v ∈ parsed, itemMap v.2 k = some a.2 ∧ v.1.1 = a.1 := by
  obtain ⟨v, hv, hfound⟩ := List.exists_of_findSome?_eq_some h
  obtain ⟨item, hitem, rfl⟩ := Option.map_eq_some_iff.mp hfound
  exact ⟨v, hv, hitem, rfl⟩

/-- If a variant has another last item with a key than the base, then the first such variant says
what becomes of the items. -/
theorem outcome_eq_of_lastText_ne {k : ItemKey} {v : (WorkspaceId × Bytes) × List TopLevelItem}
    (hv : v ∈ parsed)
    (hne : lastText (variantDocument v) k ≠ lastText (documentOf base baseItems) k) :
    ∃ w ∈ parsed, lastText (variantDocument w) k ≠ lastText (documentOf base baseItems) k ∧
      outcome (documentOf base baseItems) (parsed.map variantDocument) k =
        match lastText (variantDocument w) k with
        | none => .drop
        | some text => .replace text := by
  unfold outcome
  cases hfind : (parsed.map variantDocument).find? fun v =>
      lastText v k ≠ lastText (documentOf base baseItems) k with
  | none =>
    have := List.find?_eq_none.mp hfind (variantDocument v) (List.mem_map_of_mem hv)
    simp [hne] at this
  | some wd =>
    obtain ⟨w, hw, rfl⟩ := List.mem_map.mp (List.mem_of_find?_eq_some hfind)
    exact ⟨w, hw, by simpa using List.find?_some hfind, rfl⟩

/-- What a clean merge made of its parts. -/
theorem reconstruct_of_clean {parser : SyntaxParser} {variants : AstVariants} {lang : AstLanguage}
    {out : Bytes} (hbase : parseAndExtract parser base lang = some baseItems)
    (hparsed : (variants.mapM fun v => (parseAndExtract parser v.2 lang).map
      fun items => (v, items)) = some parsed)
    (hclean : tryAstMergeWithConfig parser base variants lang = some (.clean out)) :
    parsed.map Prod.fst = variants ∧
      conflictsOf (constraintsByItem (constraintsOf baseItems parsed)) = [] ∧
        reconstructMergedFile base baseItems (resolved baseItems parsed) variants = some out := by
  have hconstraints : (parsed.flatMap fun x =>
      (computeEditScript baseItems x.2).map (ItemConstraint.mk x.1.1)) =
        constraintsOf baseItems parsed := rfl
  refine ⟨map_fst_of_mapM hparsed, ?_⟩
  unfold tryAstMergeWithConfig at hclean
  rw [hbase] at hclean
  cases baseItems with
  | nil => simp at hclean
  | cons item items =>
    simp only [hparsed, hconstraints] at hclean
    split_ifs at hclean with hnone hconflicts hdiffers
    · -- No item was changed, and the copy is the base.
      obtain rfl : base = out := by simpa using hclean
      have hnoConflicts : conflictsOf (constraintsByItem
          (constraintsOf (item :: items) parsed)) = [] := by
        rw [hnone]
        rfl
      refine ⟨hnoConflicts, ?_⟩
      have hadded : addedResolutionItems (resolved (item :: items) parsed) = [] := by
        rw [resolved, hnone]
        rfl
      have hkeep : mergedBody (documentOf base (item :: items)) (parsed.map variantDocument) =
          documentOf base (item :: items) := by
        refine revise_of_keep _ _ _ fun e _ => ?_
        rw [← outcomeOf_get_resolved base hnoConflicts, resolved, hnone]
        rfl
      have hinsert (anchor : Option TopLevelItem) (result : Bytes) :
          insertUses anchor [] result = some (result, []) := by
        cases anchor <;> rfl
      rw [reconstructMergedFile, hadded, copyItems_eq base hnoConflicts, hkeep,
        documentOf_text (itemsInOrder_of_parse hbase), hinsert]
      rfl
    · simp at hclean
    · simp at hclean
    · refine ⟨not_not.mp hconflicts, ?_⟩
      obtain ⟨merged, hmerged, hout⟩ := Option.map_eq_some_iff.mp hclean
      cases hout
      exact hmerged

section Parts

variable {es es' rest' : List (Entry ItemKey UInt8)} {merged : SourceDocument}
  (hconflicts : conflictsOf (constraintsByItem (constraintsOf baseItems parsed)) = [])
  (hes : (mergedBody (documentOf base baseItems) (parsed.map variantDocument)).entries = es ++ es')
  (hmerged : merged.entries = es ++ ((addedResolutionItems (resolved baseItems parsed)).filter
    fun a => PlacedAtUse (documentOf base baseItems) (parsed.map variantDocument) a.2.1).map
      useEntry ++ es' ++ rest')
  (hrest : rest'.map (fun e => (e.key, e.text)) = ((addedResolutionItems
    (resolved baseItems parsed)).filter fun a => ¬PlacedAtUse (documentOf base baseItems)
      (parsed.map variantDocument) a.2.1).map fun a => (a.2.1, a.2.2.content))

include hconflicts hes hmerged hrest

/-- The merged file has the items of the base as the merged body has them. -/
theorem entriesAt_merged {k : ItemKey} (hk : (documentOf base baseItems).texts k ≠ []) :
    merged.entriesAt k =
      (mergedBody (documentOf base baseItems) (parsed.map variantDocument)).entriesAt k := by
  have hadded : (addedResolutionItems (resolved baseItems parsed)).filter
      (fun a => a.2.1 = k) = [] := by
    rw [filter_addedResolutionItems hconflicts, if_neg fun h => hk (texts_eq_nil_iff.mpr h)]
  have hne (a) (ha : a ∈ addedResolutionItems (resolved baseItems parsed)) : a.2.1 ≠ k := by
    simpa using List.filter_eq_nil_iff.mp hadded a ha
  have huses : (((addedResolutionItems (resolved baseItems parsed)).filter fun a =>
      PlacedAtUse (documentOf base baseItems) (parsed.map variantDocument) a.2.1).map
        useEntry).filter (fun e => e.key = k) = [] := by
    refine List.filter_eq_nil_iff.mpr fun e he => ?_
    obtain ⟨a, ha, rfl⟩ := List.mem_map.mp he
    exact fun h => hne a (List.mem_of_mem_filter ha) (of_decide_eq_true h)
  have happended : rest'.filter (fun e => e.key = k) = [] := by
    refine List.filter_eq_nil_iff.mpr fun e he => ?_
    have hmem : (e.key, e.text) ∈ rest'.map fun e => (e.key, e.text) :=
      List.mem_map_of_mem (f := fun e : Entry ItemKey UInt8 => (e.key, e.text)) he
    rw [hrest] at hmem
    obtain ⟨a, ha, heq⟩ := List.mem_map.mp hmem
    have hkey : a.2.1 = e.key := congrArg Prod.fst heq
    simpa [← hkey] using hne a (List.mem_of_mem_filter ha)
  rw [entriesAt, entriesAt, hmerged, hes, List.filter_append, List.filter_append,
    List.filter_append, List.filter_append, huses, happended, List.append_nil, List.append_nil]

/-- The merged file has of the items that the base has not the ones that were added. -/
theorem texts_merged {k : ItemKey} (hk : (documentOf base baseItems).texts k = []) :
    merged.texts k = ((adder parsed k).map fun a => a.2.content).toList := by
  have hadded := filter_addedResolutionItems hconflicts k
  rw [if_pos (texts_eq_nil_iff.mp hk)] at hadded
  have hbody : (mergedBody (documentOf base baseItems) (parsed.map variantDocument)).texts k =
      [] := by
    rw [mergedBody, texts_revise, hk]
    cases outcome (documentOf base baseItems) (parsed.map variantDocument) k <;> rfl
  have hnone : es.filter (fun e => e.key = k) = [] ∧ es'.filter (fun e => e.key = k) = [] := by
    rw [texts, List.map_eq_nil_iff, entriesAt, hes, List.filter_append] at hbody
    exact List.append_eq_nil_iff.mp hbody
  have hpart (es : List (Entry ItemKey UInt8)) (l : List (WorkspaceId × ItemKey × TopLevelItem))
      (h : es.map (fun e => (e.key, e.text)) = l.map fun a => (a.2.1, a.2.2.content)) :
      (es.filter fun e => e.key = k).map Entry.text =
        (l.filter fun a => a.2.1 = k).map fun a => a.2.2.content := by
    have := congrArg (fun l => (l.filter fun p : ItemKey × Bytes => p.1 = k).map Prod.snd) h
    simpa [List.filter_map, Function.comp_def] using this
  have hcomm (p : WorkspaceId × ItemKey × TopLevelItem → Bool) :
      ((addedResolutionItems (resolved baseItems parsed)).filter p).filter (fun a => a.2.1 = k) =
        ((addedResolutionItems (resolved baseItems parsed)).filter fun a => a.2.1 = k).filter p :=
    List.filter_comm ..
  have huses := hpart (((addedResolutionItems (resolved baseItems parsed)).filter fun a =>
    PlacedAtUse (documentOf base baseItems) (parsed.map variantDocument) a.2.1).map useEntry) _
      (by rw [List.map_map]; rfl)
  rw [texts, entriesAt, hmerged, List.filter_append, List.filter_append, List.filter_append,
    hnone.1, hnone.2, List.nil_append, List.append_nil, List.map_append, huses, hpart _ _ hrest,
    hcomm, hcomm, hadded]
  cases adder parsed k with
  | none => rfl
  | some a =>
    by_cases hplaced : PlacedAtUse (documentOf base baseItems) (parsed.map variantDocument) k
    · simp [hplaced]
    · simp [hplaced]

/-- If the keys are handled, the merged file has the items with a key as the variants that changed
them have them, and as the base has them if none did. -/
theorem texts_merged_eq (hkeys : ∀ v ∈ parsed, ∀ k,
      KeyHandled ((documentOf base baseItems).texts k) ((variantDocument v).texts k))
    (k : ItemKey) :
    (∀ v ∈ parsed, (variantDocument v).texts k ≠ (documentOf base baseItems).texts k →
        merged.texts k = (variantDocument v).texts k) ∧
      ((∀ v ∈ parsed, (variantDocument v).texts k = (documentOf base baseItems).texts k) →
        merged.texts k = (documentOf base baseItems).texts k) := by
  have hsame := allSameChange_of_conflictsOf hconflicts k
  have hlast {v} (hv : v ∈ parsed)
      (hne : (variantDocument v).texts k ≠ (documentOf base baseItems).texts k) :
      lastText (variantDocument v) k ≠ lastText (documentOf base baseItems) k :=
    lastText_ne_of_keyHandled (hkeys v hv k) hne
  have hbase (hk : (documentOf base baseItems).texts k ≠ []) : merged.texts k =
      (outcome (documentOf base baseItems) (parsed.map variantDocument) k).texts
        ((documentOf base baseItems).texts k) := by
    rw [texts, entriesAt_merged hconflicts hes hmerged hrest hk, ← texts, mergedBody, texts_revise]
  constructor
  · intro v hv hne
    by_cases hk : (documentOf base baseItems).texts k = []
    · -- The base has no such items, and the variant added one.
      obtain ⟨text, htext⟩ : ∃ text, (variantDocument v).texts k = [text] := by
        rcases hkeys v hv k with h | h | ⟨text, -, h⟩
        · exact absurd h hne
        · exact absurd (h.trans hk.symm) hne
        · exact ⟨text, by simpa [hk] using h⟩
      have hnone : adder parsed k ≠ none := fun h => by
        have hnil : (variantDocument v).texts k = [] :=
          texts_eq_nil_iff.mpr (adder_eq_none_iff.mp h v hv)
        exact hne (hnil.trans hk.symm)
      obtain ⟨a, ha⟩ := Option.ne_none_iff_exists'.mp hnone
      obtain ⟨w, hw, hitem, -⟩ := adder_eq_some ha
      have hwlast : lastText (variantDocument w) k = some a.2.content := by
        rw [variantDocument, lastText_documentOf, hitem]
        rfl
      have hvlast : lastText (variantDocument v) k = some text := by
        rw [lastText, htext]
        rfl
      have hblast : lastText (documentOf base baseItems) k = none := by
        rw [lastText, hk]
        rfl
      have hagree := lastText_eq_of_allSameChange hsame hv hw (hlast hv hne)
        (by rw [hwlast, hblast]; exact Option.some_ne_none _)
      rw [hvlast, hwlast, Option.some_inj] at hagree
      rw [texts_merged hconflicts hes hmerged hrest hk, ha, htext, hagree]
      rfl
    · rw [hbase hk]
      obtain ⟨w, hw, hwne, houtcome⟩ := outcome_eq_of_lastText_ne hv (hlast hv hne)
      rw [houtcome, ← lastText_eq_of_allSameChange hsame hv hw (hlast hv hne) hwne]
      rcases hkeys v hv k with h | h | ⟨text, -, h⟩
      · exact absurd h hne
      · rw [lastText, h]
        rfl
      · have hlength : 1 ≤ ((documentOf base baseItems).texts k).length :=
          List.length_pos_iff.mpr hk
        rw [max_eq_right hlength] at h
        rw [lastText, h, List.getLast?_replicate, if_neg (by omega)]
        rfl
  · intro hall
    by_cases hk : (documentOf base baseItems).texts k = []
    · have hnone : adder parsed k = none :=
        adder_eq_none_iff.mpr fun v hv => texts_eq_nil_iff.mp ((hall v hv).trans hk)
      rw [texts_merged hconflicts hes hmerged hrest hk, hk, hnone]
      rfl
    · have hkeep : outcome (documentOf base baseItems) (parsed.map variantDocument) k = .keep := by
        unfold outcome
        rw [List.find?_eq_none.mpr]
        intro vd hvd
        obtain ⟨v, hv, rfl⟩ := List.mem_map.mp hvd
        simp [lastText, hall v hv]
      rw [hbase hk, hkeep]
      rfl

end Parts

section Order

/-- The first item that is appended is not after another one. -/
theorem le_of_head?_appended {a b : WorkspaceId × ItemKey × TopLevelItem}
    (ha : ((addedResolutionItems (resolved baseItems parsed)).filter fun a => ¬PlacedAtUse
      (documentOf base baseItems) (parsed.map variantDocument) a.2.1).head? = some a)
    (hb : b ∈ (addedResolutionItems (resolved baseItems parsed)).filter fun a =>
      ¬PlacedAtUse (documentOf base baseItems) (parsed.map variantDocument) a.2.1) :
    toLex (a.1.name, a.2.2.startByte) ≤ toLex (b.1.name, b.2.2.startByte) := by
  have : Std.Total fun a b : WorkspaceId × ItemKey × TopLevelItem =>
      toLex (a.1.name, a.2.2.startByte) ≤ toLex (b.1.name, b.2.2.startByte) :=
    ⟨fun a b => le_total _ _⟩
  have : IsTrans (WorkspaceId × ItemKey × TopLevelItem) fun a b =>
      toLex (a.1.name, a.2.2.startByte) ≤ toLex (b.1.name, b.2.2.startByte) :=
    ⟨fun _ _ _ => le_trans⟩
  have hsorted := (List.pairwise_insertionSort (fun a b : WorkspaceId × ItemKey × TopLevelItem =>
    toLex (a.1.name, a.2.2.startByte) ≤ toLex (b.1.name, b.2.2.startByte))
    ((resolved baseItems parsed).filterMap addedItem)).filter fun a =>
      ¬PlacedAtUse (documentOf base baseItems) (parsed.map variantDocument) a.2.1
  rw [← addedResolutionItems] at hsorted
  obtain ⟨as, has⟩ := List.head?_eq_some_iff.mp ha
  rw [has] at hsorted hb
  rcases List.mem_cons.mp hb with rfl | hb
  · exact le_rfl
  · exact (List.pairwise_cons.mp hsorted).1 b hb

variable (hconflicts : conflictsOf (constraintsByItem (constraintsOf baseItems parsed)) = [])

include hconflicts

/-- The items that are appended. -/
theorem mem_appended {a : WorkspaceId × ItemKey × TopLevelItem} :
    a ∈ (addedResolutionItems (resolved baseItems parsed)).filter (fun a =>
        ¬PlacedAtUse (documentOf base baseItems) (parsed.map variantDocument) a.2.1) ↔
      Appended (documentOf base baseItems) parsed a.2.1 ∧
        adder parsed a.2.1 = some (a.1, a.2.2) := by
  rw [List.mem_filter, mem_addedResolutionItems hconflicts, Appended, texts_eq_nil_iff,
    decide_eq_true_eq]
  constructor
  · rintro ⟨⟨hnone, hadder⟩, hplaced⟩
    exact ⟨⟨hnone, by simp [hadder], hplaced⟩, hadder⟩
  · rintro ⟨⟨hnone, -, hplaced⟩, hadder⟩
    exact ⟨⟨hnone, hadder⟩, hplaced⟩

/-- An item that another one is appended before is not the first. -/
theorem head?_ne_of_appendedBefore {a : WorkspaceId × ItemKey × TopLevelItem} {k : ItemKey}
    (h : AppendedBefore (documentOf base baseItems) parsed k a.2.1) :
    ((addedResolutionItems (resolved baseItems parsed)).filter fun a => ¬PlacedAtUse
      (documentOf base baseItems) (parsed.map variantDocument) a.2.1).head? ≠ some a := by
  intro hhead
  obtain ⟨hk, -, b, c, hb, hc, hlt⟩ := h
  have hmem := (mem_appended hconflicts).mp (List.mem_of_mem_head? hhead)
  obtain rfl : (a.1, a.2.2) = c := Option.some_inj.mp (hmem.2.symm.trans hc)
  have hle := le_of_head?_appended hhead ((mem_appended (a := (b.1, k, b.2)) hconflicts).mpr ⟨hk, hb⟩)
  exact absurd hlt (not_lt_of_ge hle)

/-- An item that is appended before all others is the first. -/
theorem head?_eq_of_first {a : WorkspaceId × ItemKey × TopLevelItem}
    (ha : a ∈ (addedResolutionItems (resolved baseItems parsed)).filter fun a => ¬PlacedAtUse
      (documentOf base baseItems) (parsed.map variantDocument) a.2.1)
    (hfirst : ∀ k, Appended (documentOf base baseItems) parsed k → k ≠ a.2.1 →
      AppendedBefore (documentOf base baseItems) parsed a.2.1 k) :
    ((addedResolutionItems (resolved baseItems parsed)).filter fun a => ¬PlacedAtUse
      (documentOf base baseItems) (parsed.map variantDocument) a.2.1).head? = some a := by
  cases hhead : ((addedResolutionItems (resolved baseItems parsed)).filter fun a => ¬PlacedAtUse
      (documentOf base baseItems) (parsed.map variantDocument) a.2.1).head? with
  | none => exact absurd (List.head?_eq_none_iff.mp hhead) (List.ne_nil_of_mem ha)
  | some b =>
    obtain ⟨hbappended, hb⟩ := (mem_appended hconflicts).mp (List.mem_of_mem_head? hhead)
    by_cases hkey : b.2.1 = a.2.1
    · obtain ⟨-, ha⟩ := (mem_appended hconflicts).mp ha
      rw [hkey, ha] at hb
      obtain ⟨ws, key, item⟩ := a
      obtain ⟨ws', key', item'⟩ := b
      cases hb
      cases hkey
      rfl
    · exact absurd hhead (head?_ne_of_appendedBefore hconflicts (hfirst b.2.1 hbappended hkey))

end Order

section Placement

variable {es es' : List (Entry ItemKey UInt8)} {merged : SourceDocument}
  (hhandled : Handled (documentOf base baseItems) parsed)
  (hconflicts : conflictsOf (constraintsByItem (constraintsOf baseItems parsed)) = [])
  (hes : (mergedBody (documentOf base baseItems) (parsed.map variantDocument)).entries = es ++ es')
  (happends : Appends parsed ⟨es ++ ((addedResolutionItems (resolved baseItems parsed)).filter
    fun a => PlacedAtUse (documentOf base baseItems) (parsed.map variantDocument) a.2.1).map
      useEntry ++ es', (mergedBody (documentOf base baseItems)
        (parsed.map variantDocument)).trailing⟩
    ((addedResolutionItems (resolved baseItems parsed)).filter fun a =>
      ¬PlacedAtUse (documentOf base baseItems) (parsed.map variantDocument) a.2.1) merged)

include hhandled hconflicts hes happends

/-- An added item comes behind the text that the variant has in front of it. -/
theorem exists_entry_of_added {v : (WorkspaceId × Bytes) × List TopLevelItem} (hv : v ∈ parsed)
    {k : ItemKey} {e' : Entry ItemKey UInt8} (hk : (documentOf base baseItems).texts k = [])
    (he' : (variantDocument v).item k 0 = some e') :
    ∃ es₁ e es₂, merged.entries = es₁ ++ e :: es₂ ∧ e.key = k ∧
      e'.gap <:+ textOf es₁ ++ e.gap := by
  have hadder : adder parsed k ≠ none := by
    intro hnone
    have htexts : (variantDocument v).texts k = [] :=
      texts_eq_nil_iff.mpr (adder_eq_none_iff.mp hnone v hv)
    have := map_text_item (variantDocument v) k 0
    rw [he', htexts] at this
    cases this
  obtain ⟨a, ha⟩ := Option.ne_none_iff_exists'.mp hadder
  by_cases hplaced : PlacedAtUse (documentOf base baseItems) (parsed.map variantDocument) k
  · have hmem : (a.1, k, a.2) ∈ (addedResolutionItems (resolved baseItems parsed)).filter fun a =>
        PlacedAtUse (documentOf base baseItems) (parsed.map variantDocument) a.2.1 := by
      rw [List.mem_filter, mem_addedResolutionItems hconflicts]
      exact ⟨⟨texts_eq_nil_iff.mp hk, ha⟩, decide_eq_true hplaced⟩
    obtain ⟨uses, uses', huses⟩ := List.append_of_mem hmem
    obtain ⟨rest', hentries, -⟩ := happends.entries
    refine ⟨es ++ uses.map useEntry, useEntry (a.1, k, a.2), uses'.map useEntry ++ es' ++ rest', ?_,
      rfl, (hhandled.addedUse v hv k e' hk he' hplaced).trans (List.suffix_append ..)⟩
    rw [hentries, huses, List.map_append, List.map_cons]
    simp only [List.append_assoc, List.cons_append]
  · have happended : Appended (documentOf base baseItems) parsed k := ⟨hk, hadder, hplaced⟩
    have hmem := (mem_appended (a := (a.1, k, a.2)) hconflicts).mpr ⟨happended, ha⟩
    obtain ⟨es₁, e, es₂, trivia, hentries, hkey, htrivia, htwo, hfirst⟩ := happends.placed hmem
    refine ⟨es₁, e, es₂, hentries, hkey, ?_⟩
    rcases hhandled.added v hv k e' happended he' a trivia ha htrivia with
      ⟨hor, hsuffix⟩ | ⟨hall, hsuffix⟩
    · refine hsuffix.trans (htwo ?_)
      rcases hor with hbody | ⟨k', hbefore⟩
      · refine .inl fun htext => hbody ?_
        simp only [Document.text, textOf_append, List.append_eq_nil_iff] at htext
        rw [Document.text, hes, textOf_append, htext.1.1.1, htext.1.2, htext.2]
        rfl
      · exact .inr (head?_ne_of_appendedBefore (a := (a.1, k, a.2)) hconflicts hbefore)
    · obtain ⟨front, hfront⟩ := breakParagraph_suffix (textOf (es ++ ((addedResolutionItems
        (resolved baseItems parsed)).filter fun a => PlacedAtUse (documentOf base baseItems)
          (parsed.map variantDocument) a.2.1).map useEntry ++ es'))
        (mergedBody (documentOf base baseItems) (parsed.map variantDocument)).trailing
      refine (hsuffix.trans ?_).trans (hfirst (head?_eq_of_first hconflicts hmem hall))
      rw [Document.text, ← hfront]
      exact ⟨front, (List.append_assoc ..).symm⟩

/-- Between the items of the merged file there is text between items only. -/
theorem gaps_merged : ∀ gap ∈ merged.gaps, MadeOf (fun piece => piece = [0x0A] ∨
    ∃ doc ∈ documentOf base baseItems :: parsed.map variantDocument, ∃ gap ∈ doc.gaps,
      piece <:+ gap) gap := by
  refine happends.gaps (.inl rfl) (fun a ha trivia htrivia => ?_) ?_
  · obtain ⟨happended, hadder⟩ := (mem_appended hconflicts).mp ha
    obtain ⟨v, hv, gap, hgap, hsuffix⟩ := hhandled.trivia _ _ _ happended hadder htrivia
    exact .inr ⟨_, List.mem_cons_of_mem _ (List.mem_map_of_mem hv), gap, hgap, hsuffix⟩
  · have hbody (gap : Bytes) (hgap : gap ∈ (mergedBody (documentOf base baseItems)
        (parsed.map variantDocument)).gaps) := (gaps_revise isBlank (outcome
          (documentOf base baseItems) (parsed.map variantDocument)) _ gap hgap).imp
            fun piece ⟨gap, hgap, hsuffix⟩ =>
              (.inr ⟨_, List.mem_cons_self, gap, hgap, hsuffix⟩ : piece = [0x0A] ∨
                ∃ doc ∈ documentOf base baseItems :: parsed.map variantDocument,
                  ∃ gap ∈ doc.gaps, piece <:+ gap)
    simp only [Document.gaps, hes, List.map_append, List.map_map, List.mem_append, List.mem_map,
      List.mem_singleton] at hbody ⊢
    rintro gap (((hgap | ⟨a, -, rfl⟩) | hgap) | hgap)
    · exact hbody gap (.inl (.inl hgap))
    · exact .of (.inl rfl)
    · exact hbody gap (.inl (.inr hgap))
    · exact hbody gap (.inr hgap)

end Placement

/-- **Lossless structured merge.** A clean merge of files that the code handles loses nothing. -/
theorem merge_losesNothing {parser : SyntaxParser} {variants : AstVariants} {lang : AstLanguage}
    {out : Bytes} (hbase : parseAndExtract parser base lang = some baseItems)
    (hparsed : (variants.mapM fun v => (parseAndExtract parser v.2 lang).map
      fun items => (v, items)) = some parsed)
    (hclean : tryAstMergeWithConfig parser base variants lang = some (.clean out))
    (hhandled : Handled (documentOf base baseItems) parsed) :
    LosesNothing (documentOf base baseItems) (parsed.map variantDocument) out := by
  obtain ⟨rfl, hconflicts, hreconstruct⟩ := reconstruct_of_clean hbase hparsed hclean
  rw [reconstructMergedFile, copyItems_eq base hconflicts] at hreconstruct
  obtain ⟨r, hinsert, hfold⟩ := Option.bind_eq_some_iff.mp hreconstruct
  obtain ⟨es, es', hes, rfl⟩ := insertUses_eq hhandled hconflicts r hinsert
  obtain ⟨merged, happends, htext⟩ := appends_of_foldlM hfold
  obtain ⟨rest', hentries, hrest⟩ := happends.entries
  have htexts := texts_merged_eq hconflicts hes hentries hrest hhandled.keys
  refine ⟨merged, htext, ?_, ?_, ?_, ?_, ?_, ?_⟩
  · intro vd hvd k n hne
    obtain ⟨v, hv, rfl⟩ := List.mem_map.mp hvd
    rw [map_text_item, map_text_item] at hne ⊢
    rw [(htexts k).1 v hv fun h => hne (by rw [h])]
  · intro k n hall
    simp only [map_text_item] at hall ⊢
    by_cases hsame : ∀ v ∈ parsed,
        (variantDocument v).texts k = (documentOf base baseItems).texts k
    · rw [(htexts k).2 hsame]
    · push Not at hsame
      obtain ⟨v, hv, hne⟩ := hsame
      rw [(htexts k).1 v hv hne]
      exact hall _ (List.mem_map_of_mem hv)
  · intro vd hvd k n e e' he he' hgap
    obtain ⟨v, hv, rfl⟩ := List.mem_map.mp hvd
    have hk : (documentOf base baseItems).texts k ≠ [] := by
      intro hk
      have := map_text_item (documentOf base baseItems) k n
      rw [he, hk] at this
      cases this
    rw [item, entriesAt_merged hconflicts hes hentries hrest hk]
    exact hhandled.gaps v hv k n e e' he he' hgap
  · intro vd hvd k n e' hnone he'
    obtain ⟨v, hv, rfl⟩ := List.mem_map.mp hvd
    obtain ⟨hk, rfl, hlength⟩ := added_of_keyHandled (hhandled.keys v hv k) hnone he'
    obtain ⟨es₁, e, es₂, hsplit, hkey, hsuffix⟩ :=
      exists_entry_of_added hhandled hconflicts hes happends hv hk he'
    refine ⟨es₁, e, es₂, hsplit, hkey, ?_, hsuffix⟩
    have hitem := item_eq_some_iff.mpr ⟨hkey, es₁, es₂, hsplit, rfl⟩
    have hne : (variantDocument v).texts k ≠ (documentOf base baseItems).texts k := by
      intro h
      rw [h, hk] at hlength
      cases hlength
    have hone : (merged.entriesAt k).length = 1 := by
      rw [← hlength, ← (htexts k).1 v hv hne, texts, List.length_map]
    have hlt := (List.getElem?_eq_some_iff.mp hitem).1
    omega
  · intro vd hvd hne
    obtain ⟨v, hv, rfl⟩ := List.mem_map.mp hvd
    obtain ⟨happended, hnone⟩ := hhandled.trailing v hv hne
    rw [happends.trailing]
    split_ifs with hnil
    · refine (hnone fun k hk => ?_).symm
      obtain ⟨a, ha⟩ := Option.ne_none_iff_exists'.mp hk.2.1
      have hmem := (mem_appended (a := (a.1, k, a.2)) hconflicts).mpr ⟨hk, ha⟩
      rw [hnil] at hmem
      exact absurd hmem List.not_mem_nil
    · obtain ⟨a, ha⟩ := List.exists_mem_of_ne_nil _ hnil
      exact (happended ⟨a.2.1, ((mem_appended hconflicts).mp ha).1⟩).symm
  · exact gaps_merged hhandled hconflicts hes happends

/-- A merge in which no variant adds items or changes the text between them is handled if its keys
are. -/
theorem Handled.of_same {base : SourceDocument}
    (hkeys : ∀ v ∈ parsed, ∀ k, KeyHandled (base.texts k) ((variantDocument v).texts k))
    (hgaps : ∀ v ∈ parsed, ∀ k n e e', base.item k n = some e →
      (variantDocument v).item k n = some e' → e'.gap = e.gap)
    (htrailing : ∀ v ∈ parsed, (variantDocument v).trailing = base.trailing)
    (hadded : ∀ v ∈ parsed, ∀ k, base.texts k = [] → (variantDocument v).texts k = []) :
    Handled base parsed := by
  have hadder {k : ItemKey} (hk : base.texts k = []) : adder parsed k = none :=
    adder_eq_none_iff.mpr fun v hv => texts_eq_nil_iff.mp (hadded v hv k hk)
  constructor
  · exact hkeys
  · exact fun v hv k n e e' he he' hne => absurd (hgaps v hv k n e e' he he') hne
  · exact fun v hv hne => absurd (htrailing v hv) hne
  · rintro place - ⟨k, hk, hne, -⟩
    exact absurd (hadder hk) hne
  · intro v hv k e hk he
    have := map_text_item (variantDocument v) k 0
    rw [he, hadded v hv k hk] at this
    cases this
  · exact fun v hv k e happended => absurd (hadder happended.1) happended.2.1
  · exact fun k a trivia happended => absurd (hadder happended.1) happended.2.1

end Merged

/-! ### A comment and a function -/

section Sample

/-- A parser of files with a comment of six bytes on a line and a function behind it. -/
def sampleParser : SyntaxParser where
  parse _ source :=
    if 17 ≤ source.length then
      some [⟨"line_comment", 0, 6, fun _ => none⟩,
        ⟨"function_item", 7, source.length - 1,
          fun field => if field = "name" then some (10, 11) else none⟩]
    else none
  inOrder h := by
    split_ifs at h with hlength
    obtain rfl := Option.some_inj.mp h
    simp only [NodesInOrder]
    omega

def commented (comment function : String) : Bytes :=
  (comment ++ "\n" ++ function ++ "\n").toUTF8.toList

def functionKey : ItemKey := .named "function_item" [0x61]

def sampleItems (function : String) : List TopLevelItem :=
  [⟨"function_item", some [0x61], 7, 7 + function.toUTF8.toList.length, function.toUTF8.toList⟩]

def sampleDocument (comment function : String) : SourceDocument :=
  ⟨[⟨functionKey, (comment ++ "\n").toUTF8.toList, function.toUTF8.toList⟩], [0x0A]⟩

private theorem texts_sampleDocument (comment function : String) (k : ItemKey) :
    (sampleDocument comment function).texts k =
      if k = functionKey then [function.toUTF8.toList] else [] := by
  by_cases hk : k = functionKey
  · simp [texts, entriesAt, sampleDocument, hk]
  · simp [texts, entriesAt, sampleDocument, hk, Ne.symm hk]

private theorem item_sampleDocument {comment function : String} {k : ItemKey} {n : ℕ}
    {e : Entry ItemKey UInt8} (h : (sampleDocument comment function).item k n = some e) :
    k = functionKey ∧ e = ⟨functionKey, (comment ++ "\n").toUTF8.toList,
      function.toUTF8.toList⟩ := by
  obtain ⟨hmem, rfl⟩ := key_eq_of_item h
  obtain rfl := List.mem_singleton.mp hmem
  exact ⟨rfl, rfl⟩

/-- A merge of a changed function. -/
theorem merge_losesNothing_sample :
    LosesNothing (sampleDocument "// old" "fn a() {}")
      [sampleDocument "// old" "fn a() {1}", sampleDocument "// old" "fn a() {}"]
      (commented "// old" "fn a() {1}") := by
  have hbase : documentOf (commented "// old" "fn a() {}") (sampleItems "fn a() {}") =
      sampleDocument "// old" "fn a() {}" := by decide +kernel
  have halice : documentOf (commented "// old" "fn a() {1}") (sampleItems "fn a() {1}") =
      sampleDocument "// old" "fn a() {1}" := by decide +kernel
  have hparsed : ([(⟨"alice"⟩, commented "// old" "fn a() {1}"),
      (⟨"bob"⟩, commented "// old" "fn a() {}")] : AstVariants).mapM (fun v =>
        (parseAndExtract sampleParser v.2 .rust).map fun items => (v, items)) =
      some [((⟨"alice"⟩, commented "// old" "fn a() {1}"), sampleItems "fn a() {1}"),
        ((⟨"bob"⟩, commented "// old" "fn a() {}"), sampleItems "fn a() {}")] := by decide +kernel
  have hhandled : Handled (sampleDocument "// old" "fn a() {}")
      [((⟨"alice"⟩, commented "// old" "fn a() {1}"), sampleItems "fn a() {1}"),
        ((⟨"bob"⟩, commented "// old" "fn a() {}"), sampleItems "fn a() {}")] := by
    have hvariants (v) (hv : v ∈ [((⟨"alice"⟩, commented "// old" "fn a() {1}"),
        sampleItems "fn a() {1}"), ((⟨"bob"⟩, commented "// old" "fn a() {}"),
          sampleItems "fn a() {}")]) : ∃ function, variantDocument v =
            sampleDocument "// old" function := by
      rcases List.mem_cons.mp hv with rfl | hv
      · exact ⟨_, halice⟩
      · obtain rfl := List.mem_singleton.mp hv
        exact ⟨_, hbase⟩
    apply Handled.of_same
    · intro v hv k
      obtain ⟨function, hv⟩ := hvariants v hv
      rw [hv, texts_sampleDocument, texts_sampleDocument]
      split_ifs
      · by_cases hsame : function.toUTF8.toList = "fn a() {}".toUTF8.toList
        · exact .inl (by rw [hsame])
        · exact .inr (.inr ⟨_, by simpa using Ne.symm hsame, rfl⟩)
      · exact .inl rfl
    · intro v hv k n e e' he he'
      obtain ⟨function, hv⟩ := hvariants v hv
      rw [hv] at he'
      rw [(item_sampleDocument he).2, (item_sampleDocument he').2]
    · intro v hv
      obtain ⟨function, hv⟩ := hvariants v hv
      rw [hv]
      rfl
    · intro v hv k hk
      obtain ⟨function, hv⟩ := hvariants v hv
      rw [texts_sampleDocument] at hk
      rw [hv, texts_sampleDocument]
      split_ifs at hk ⊢
      rfl
  have hclean : tryAstMergeWithConfig sampleParser (commented "// old" "fn a() {}")
      [(⟨"alice"⟩, commented "// old" "fn a() {1}"), (⟨"bob"⟩, commented "// old" "fn a() {}")]
      .rust = some (.clean (commented "// old" "fn a() {1}")) := by decide +kernel
  have hitems : parseAndExtract sampleParser (commented "// old" "fn a() {}") .rust =
      some (sampleItems "fn a() {}") := by decide +kernel
  rw [← hbase] at hhandled
  rw [← halice, ← hbase]
  exact merge_losesNothing hitems hparsed hclean hhandled

/-- Two variants changed a comment, and the merge returns the base. -/
theorem comments_lost :
    tryAstMergeWithConfig sampleParser (commented "// old" "fn a() {}")
        [(⟨"alice"⟩, commented "// new" "fn a() {}"), (⟨"bob"⟩, commented "// odd" "fn a() {}")]
        .rust = some (.clean (commented "// old" "fn a() {}")) ∧
      parseAndExtract sampleParser (commented "// old" "fn a() {}") .rust =
        some (sampleItems "fn a() {}") ∧
      ¬LosesNothing (documentOf (commented "// old" "fn a() {}") (sampleItems "fn a() {}"))
        [documentOf (commented "// new" "fn a() {}") (sampleItems "fn a() {}"),
          documentOf (commented "// odd" "fn a() {}") (sampleItems "fn a() {}")]
        (commented "// old" "fn a() {}") := by
  refine ⟨by decide +kernel, by decide +kernel, ?_⟩
  rintro ⟨merged, -, hkeeps⟩
  have halice := hkeeps.gaps _ List.mem_cons_self functionKey 0
    ⟨functionKey, "// old\n".toUTF8.toList, "fn a() {}".toUTF8.toList⟩
    ⟨functionKey, "// new\n".toUTF8.toList, "fn a() {}".toUTF8.toList⟩
    (by decide +kernel) (by decide +kernel) (by decide +kernel)
  have hbob := hkeeps.gaps _ (List.mem_cons_of_mem _ List.mem_cons_self) functionKey 0
    ⟨functionKey, "// old\n".toUTF8.toList, "fn a() {}".toUTF8.toList⟩
    ⟨functionKey, "// odd\n".toUTF8.toList, "fn a() {}".toUTF8.toList⟩
    (by decide +kernel) (by decide +kernel) (by decide +kernel)
  exact absurd (halice.symm.trans hbob) (by decide +kernel)

end Sample

end Maw.Ast
