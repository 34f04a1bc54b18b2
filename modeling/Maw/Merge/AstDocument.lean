import Maw.Library.Document
import Maw.Merge.AstMerge

/-!
# The structured merge on documents

A parsed file is a document: its items, each with its key and the text in front of it. On
documents the merge says what becomes of the items with a key by the last one of them in each
version, revises the base so, and puts the added items behind a use or at the end. The code does
the same on bytes.

## Main definitions

* `documentOf` — a parsed file as a document.
* `lastText`, `outcome` — what becomes of the items with a key.
* `mergedBody` — the base with its items kept, left out or replaced.

## Main results

* `documentOf_text` — a document has the text of its file.
* `get_resolutionsOf` — how the items with a key are resolved.
* `copyItems_eq` — the bytes that are copied are the text of the revised base.
-/

namespace Maw.Ast

open Document

abbrev SourceDocument := Document ItemKey UInt8

/-! ### Parsed files -/

section Parsed

/-- The items stand one behind the other between two places of a file, and have its bytes. -/
def ItemsInOrder (source : Bytes) : ℕ → List TopLevelItem → Prop
  | cursor, [] => cursor ≤ source.length
  | cursor, item :: items =>
    cursor ≤ item.startByte ∧ item.startByte ≤ item.endByte ∧
      item.content = slice source item.startByte item.endByte ∧
        ItemsInOrder source item.endByte items

/-- The items of a file from an index and a place on. -/
def entriesFrom (source : Bytes) : (index cursor : ℕ) → List TopLevelItem →
    List (Entry ItemKey UInt8)
  | _, _, [] => []
  | index, cursor, item :: items =>
    ⟨item.identityKey index, slice source cursor item.startByte, item.content⟩ ::
      entriesFrom source (index + 1) item.endByte items

/-- The place behind the last item. -/
def endOf : ℕ → List TopLevelItem → ℕ
  | cursor, [] => cursor
  | _, item :: items => endOf item.endByte items

/-- A parsed file as items with text between them. -/
def documentOf (source : Bytes) (items : List TopLevelItem) : SourceDocument :=
  ⟨entriesFrom source 0 0 items, source.drop (endOf 0 items)⟩

variable {source : Bytes} {items : List TopLevelItem} {index cursor : ℕ}

theorem itemsInOrder_of_parse {parser : SyntaxParser} {lang : AstLanguage}
    (h : parseAndExtract parser source lang = some items) : ItemsInOrder source 0 items := by
  obtain ⟨nodes, hnodes, rfl⟩ := Option.map_eq_some_iff.mp h
  have hfrom (nodes : List SyntaxNode) (cursor cursor' : ℕ) (hle : cursor ≤ cursor')
      (h : NodesInOrder cursor' source.length nodes) : ItemsInOrder source cursor
        ((nodes.filter fun node => node.kind ∈ lang.namedItemKinds).map
          (itemOfNode lang source)) := by
    induction nodes generalizing cursor cursor' with
    | nil => exact hle.trans h
    | cons node nodes ih =>
      obtain ⟨hstart, hlt, hrest⟩ := h
      rw [List.filter_cons]
      split_ifs with hkind
      · exact ⟨hle.trans hstart, hlt, rfl, ih _ _ le_rfl hrest⟩
      · exact ih _ _ (by omega) hrest
  exact hfrom nodes 0 0 le_rfl (parser.inOrder hnodes)

theorem slice_append_drop (start stop : ℕ) (h : start ≤ stop) :
    slice source start stop ++ source.drop stop = source.drop start := by
  have hdrop : source.drop stop = (source.drop start).drop (stop - start) := by
    rw [List.drop_drop]
    congr 1
    omega
  rw [slice, hdrop, List.take_append_drop]

/-- A document has the text of its file. -/
theorem textOf_entriesFrom (h : ItemsInOrder source cursor items) (index : ℕ) :
    textOf (entriesFrom source index cursor items) ++ source.drop (endOf cursor items) =
      source.drop cursor := by
  induction items generalizing index cursor with
  | nil => rfl
  | cons item items ih =>
    obtain ⟨hstart, hlt, hcontent, hrest⟩ := h
    rw [entriesFrom, textOf_cons, endOf, List.append_assoc, ih hrest, hcontent, List.append_assoc,
      slice_append_drop _ _ hlt, slice_append_drop _ _ hstart]

theorem documentOf_text (h : ItemsInOrder source 0 items) :
    (documentOf source items).text = source :=
  textOf_entriesFrom h 0

theorem map_entriesFrom (source : Bytes) (index cursor : ℕ) (items : List TopLevelItem) :
    (entriesFrom source index cursor items).map (fun e => (e.key, e.text)) =
      (keyedFrom index items).map fun entry => (entry.1, entry.2.content) := by
  induction items generalizing index cursor with
  | nil => rfl
  | cons item items ih =>
    rw [entriesFrom, keyedFrom, List.map_cons, List.map_cons, ih]

/-- The texts of the items with a key. -/
theorem texts_documentOf (source : Bytes) (items : List TopLevelItem) (k : ItemKey) :
    (documentOf source items).texts k =
      ((keyedFrom 0 items).filter fun entry => entry.1 = k).map fun entry => entry.2.content := by
  have h := congrArg (fun l => (l.filter fun p : ItemKey × Bytes => p.1 = k).map Prod.snd)
    (map_entriesFrom source 0 0 items)
  simpa [texts, entriesAt, documentOf, List.filter_map, Function.comp_def] using h

/-- The text of the last item with a key. -/
def lastText (doc : SourceDocument) (k : ItemKey) : Option Bytes := (doc.texts k).getLast?

theorem lastText_documentOf (source : Bytes) (items : List TopLevelItem) (k : ItemKey) :
    lastText (documentOf source items) k = (itemMap items k).map TopLevelItem.content := by
  unfold lastText itemMap
  rw [texts_documentOf, List.getLast?_map, List.getLast?_eq_head?_reverse, ← List.filter_reverse,
    List.head?_filter, Option.map_map]
  rfl

theorem itemMap_eq_none_iff {k : ItemKey} :
    itemMap items k = none ↔ ∀ entry ∈ keyedFrom 0 items, entry.1 ≠ k := by
  simp [itemMap]

theorem kind_identityKey (item : TopLevelItem) (index : ℕ) :
    (item.identityKey index).kind = item.kind := by
  unfold TopLevelItem.identityKey
  cases item.name <;> rfl

end Parsed

/-! ### Resolutions -/

section Resolutions

variable {baseItems variantItems : List TopLevelItem} {k : ItemKey}

theorem mem_keysInOrder {keys : List ItemKey} : k ∈ keysInOrder keys ↔ k ∈ keys := by
  simp [keysInOrder]

theorem nodup_keysInOrder (keys : List ItemKey) : (keysInOrder keys).Nodup :=
  (List.perm_insertionSort _ _).nodup_iff.mpr (List.nodup_dedup keys)

theorem mem_itemKeys : k ∈ itemKeys baseItems ↔ itemMap baseItems k ≠ none := by
  rw [itemKeys, mem_keysInOrder, Ne, itemMap_eq_none_iff, List.mem_map]
  push Not
  rfl

theorem nodup_itemKeys (items : List TopLevelItem) : (itemKeys items).Nodup := nodup_keysInOrder _

/-- The change of the items with a key. -/
def changeAt (baseItems variantItems : List TopLevelItem) (key : ItemKey) : Option ItemChange :=
  match itemMap baseItems key, itemMap variantItems key with
  | some baseItem, some variantItem =>
    if baseItem.content ≠ variantItem.content then some (.modified key baseItem variantItem)
    else none
  | some baseItem, none => some (.deleted key baseItem)
  | none, some variantItem => some (.added key variantItem)
  | none, none => none

theorem key_of_changeAt {change : ItemChange} (h : changeAt baseItems variantItems k = some change) :
    change.key = k := by
  unfold changeAt at h
  split at h
  · split_ifs at h
    cases h
    rfl
  · cases h
    rfl
  · cases h
    rfl
  · cases h

/-- A list that is made key by key has at a key what is made of it. -/
theorem filter_filterMap_key {β : Type*} (key : β → ItemKey) {f : ItemKey → Option β}
    (hf : ∀ k b, f k = some b → key b = k) {keys : List ItemKey} (hkeys : keys.Nodup)
    (k : ItemKey) :
    (keys.filterMap f).filter (fun b => key b = k) = if k ∈ keys then (f k).toList else [] := by
  induction keys with
  | nil => rfl
  | cons k' keys ih =>
    obtain ⟨hk', hrest⟩ := List.nodup_cons.mp hkeys
    rw [List.filterMap_cons]
    by_cases hk : k = k'
    · subst hk
      rw [if_pos List.mem_cons_self]
      cases hfk : f k with
      | none => simpa [hk'] using ih hrest
      | some b =>
        rw [List.filter_cons_of_pos (by simpa using hf k b hfk), ih hrest, if_neg hk']
        rfl
    · have hmem : k ∈ k' :: keys ↔ k ∈ keys := by simp [hk]
      rw [if_congr hmem rfl rfl, ← ih hrest]
      cases hfk : f k' with
      | none => rfl
      | some b =>
        exact List.filter_cons_of_neg (by simpa [hf k' b hfk] using Ne.symm hk)

/-- A variant's edit script has of each key its change. -/
theorem filter_computeEditScript (baseItems variantItems : List TopLevelItem) (k : ItemKey) :
    (computeEditScript baseItems variantItems).filter (fun change => change.key = k) =
      (changeAt baseItems variantItems k).toList := by
  unfold computeEditScript
  rw [List.filter_append, filter_filterMap_key ItemChange.key ?_ (nodup_itemKeys _),
    filter_filterMap_key ItemChange.key ?_ (nodup_itemKeys _)]
  · rw [if_congr mem_itemKeys rfl rfl, if_congr mem_itemKeys rfl rfl]
    unfold changeAt
    cases itemMap baseItems k <;> cases itemMap variantItems k <;> simp
  · intro k change h
    split at h
    · cases h
      rfl
    · cases h
  · intro k change h
    split at h
    · split_ifs at h
      cases h
      rfl
    · cases h
      rfl
    · cases h

/-- The parsed variants of a merge. -/
abbrev ParsedVariants := List ((WorkspaceId × Bytes) × List TopLevelItem)

def constraintsOf (baseItems : List TopLevelItem) (parsed : ParsedVariants) :
    List ItemConstraint :=
  parsed.flatMap fun (v, items) =>
    (computeEditScript baseItems items).map (ItemConstraint.mk v.1)

/-- The constraints on the items with a key. -/
theorem filter_constraintsOf (baseItems : List TopLevelItem) (parsed : ParsedVariants)
    (k : ItemKey) :
    (constraintsOf baseItems parsed).filter (fun c => c.change.key = k) =
      parsed.filterMap fun v => (changeAt baseItems v.2 k).map (ItemConstraint.mk v.1.1) := by
  induction parsed with
  | nil => rfl
  | cons v parsed ih =>
    unfold constraintsOf at ih ⊢
    rw [List.flatMap_cons, List.filter_append, ih, List.filterMap_cons, List.filter_map]
    have := filter_computeEditScript baseItems v.2 k
    simp only [Function.comp_def, this]
    cases changeAt baseItems v.2 k <;> rfl

theorem filter_eq_nil_of_not_mem {cs : List ItemConstraint}
    (hk : k ∉ keysInOrder (cs.map fun c => c.change.key)) :
    cs.filter (fun c => c.change.key = k) = [] := by
  refine List.filter_eq_nil_iff.mpr fun c hc hck => hk (mem_keysInOrder.mpr ?_)
  exact List.mem_map.mpr ⟨c, hc, by simpa using hck⟩

/-- If no items are in conflict, all constraints on the items with a key are alike. -/
theorem allSameChange_of_conflictsOf {cs : List ItemConstraint}
    (hconflicts : conflictsOf (constraintsByItem cs) = []) (k : ItemKey) :
    allSameChange (cs.filter fun c => c.change.key = k) = true := by
  by_cases hk : k ∈ keysInOrder (cs.map fun c => c.change.key)
  · have hmem : (k, cs.filter fun c => c.change.key = k) ∈ constraintsByItem cs :=
      List.mem_map.mpr ⟨k, hk, rfl⟩
    simpa using List.filter_eq_nil_iff.mp hconflicts _ hmem
  · rw [filter_eq_nil_of_not_mem hk]
    rfl

/-- The resolutions, in the order of their keys. -/
theorem resolutionsOf_constraintsByItem {cs : List ItemConstraint}
    (hconflicts : conflictsOf (constraintsByItem cs) = []) :
    resolutionsOf (constraintsByItem cs) =
      (keysInOrder (cs.map fun c => c.change.key)).filterMap fun key =>
        (cs.filter fun c => c.change.key = key).head?.map fun c => (key, c) := by
  unfold resolutionsOf constraintsByItem
  rw [List.filterMap_map]
  refine List.filterMap_congr fun key _ => ?_
  simp only [Function.comp_apply, if_pos (allSameChange_of_conflictsOf hconflicts key)]

/-- How the items with a key are resolved: as the first variant that changed them has them. -/
theorem get_resolutionsOf {cs : List ItemConstraint}
    (hconflicts : conflictsOf (constraintsByItem cs) = []) (k : ItemKey) :
    (resolutionsOf (constraintsByItem cs)).get k =
      (cs.filter fun c => c.change.key = k).head? := by
  rw [Resolutions.get, resolutionsOf_constraintsByItem hconflicts, ← List.head?_filter,
    filter_filterMap_key Prod.fst ?_ (nodup_keysInOrder _)]
  · split_ifs with hk
    · cases (cs.filter fun c => c.change.key = k).head? <;> rfl
    · rw [filter_eq_nil_of_not_mem hk]
      rfl
  · intro key r hr
    obtain ⟨c, -, rfl⟩ := Option.map_eq_some_iff.mp hr
    rfl

/-- What is made of the resolutions of one key is made of the first constraint on it. -/
theorem filter_filterMap_resolutionsOf {β : Type*} (key : β → ItemKey)
    {g : ItemKey × ItemConstraint → Option β}
    (hg : ∀ r b, r.2.change.key = r.1 → g r = some b → key b = r.1)
    {cs : List ItemConstraint} (hconflicts : conflictsOf (constraintsByItem cs) = [])
    (k : ItemKey) :
    ((resolutionsOf (constraintsByItem cs)).filterMap g).filter (fun b => key b = k) =
      (((resolutionsOf (constraintsByItem cs)).get k).bind fun c => g (k, c)).toList := by
  rw [get_resolutionsOf hconflicts, resolutionsOf_constraintsByItem hconflicts,
    List.filterMap_filterMap, filter_filterMap_key key ?_ (nodup_keysInOrder _)]
  · split_ifs with hk
    · cases (cs.filter fun c => c.change.key = k).head? <;> rfl
    · rw [filter_eq_nil_of_not_mem hk]
      rfl
  · intro key' b hb
    obtain ⟨r, hr, hgr⟩ := Option.bind_eq_some_iff.mp hb
    obtain ⟨c, hc, rfl⟩ := Option.map_eq_some_iff.mp hr
    have hkey := (List.mem_filter.mp (List.mem_of_mem_head? hc)).2
    exact hg _ _ (by simpa using hkey) hgr

end Resolutions

/-! ### What becomes of the items -/

section Outcomes

/-- What becomes of the items with a key: as in the first variant that has another last one. -/
def outcome (base : SourceDocument) (variants : List SourceDocument) (k : ItemKey) :
    Outcome UInt8 :=
  match variants.find? fun v => lastText v k ≠ lastText base k with
  | none => .keep
  | some v =>
    match lastText v k with
    | none => .drop
    | some text => .replace text

/-- The base with its items kept, left out or replaced. -/
def mergedBody (base : SourceDocument) (variants : List SourceDocument) : SourceDocument :=
  base.revise isBlank (outcome base variants)

/-- What a change makes of items. -/
def outcomeOf : Option ItemChange → Outcome UInt8
  | none => .keep
  | some change =>
    match change.changeContent with
    | none => .drop
    | some text => .replace text

variable {base : Bytes} {baseItems : List TopLevelItem} {parsed : ParsedVariants} {k : ItemKey}

/-- A parsed variant as a document. -/
def variantDocument (v : (WorkspaceId × Bytes) × List TopLevelItem) : SourceDocument :=
  documentOf v.1.2 v.2

/-- A variant has a change of a key if and only if its last item with the key is another one; then
the change is to that. -/
theorem changeAt_eq (base : Bytes) (baseItems : List TopLevelItem)
    (v : (WorkspaceId × Bytes) × List TopLevelItem) (k : ItemKey) :
    (changeAt baseItems v.2 k).map ItemChange.changeContent =
      if lastText (variantDocument v) k ≠ lastText (documentOf base baseItems) k then
        some (lastText (variantDocument v) k) else none := by
  rw [variantDocument, lastText_documentOf, lastText_documentOf]
  unfold changeAt
  cases itemMap baseItems k with
  | none =>
    cases itemMap v.2 k with
    | none => simp
    | some variantItem => simp [ItemChange.changeContent]
  | some baseItem =>
    cases itemMap v.2 k with
    | none => simp [ItemChange.changeContent]
    | some variantItem =>
      by_cases h : baseItem.content = variantItem.content
      · simp [h]
      · simp [h, Ne.symm h, ItemChange.changeContent]

/-- The first constraint on a key says what becomes of its items. -/
theorem outcomeOf_head? (base : Bytes) (baseItems : List TopLevelItem) (parsed : ParsedVariants)
    (k : ItemKey) :
    outcomeOf (((constraintsOf baseItems parsed).filter fun c => c.change.key = k).head?.map
        ItemConstraint.change) =
      outcome (documentOf base baseItems) (parsed.map variantDocument) k := by
  rw [filter_constraintsOf]
  unfold outcome
  induction parsed with
  | nil => rfl
  | cons v parsed ih =>
    rw [List.filterMap_cons, List.map_cons, List.find?_cons]
    have hv := changeAt_eq base baseItems v k
    cases hchange : changeAt baseItems v.2 k with
    | none =>
      have hlast : lastText (variantDocument v) k = lastText (documentOf base baseItems) k := by
        by_contra hne
        rw [hchange, if_pos hne] at hv
        simp at hv
      simpa [hlast] using ih
    | some change =>
      have hlast : lastText (variantDocument v) k ≠ lastText (documentOf base baseItems) k := by
        intro heq
        rw [hchange, if_neg (not_not_intro heq)] at hv
        simp at hv
      rw [hchange, if_pos hlast, Option.map_some, Option.some_inj] at hv
      simp only [Option.map_some, List.head?_cons, decide_eq_true hlast, outcomeOf, hv]

/-- All variants that have another last item with a key than the base have the same one, if the
constraints on it are alike. -/
theorem lastText_eq_of_allSameChange
    (hsame : allSameChange ((constraintsOf baseItems parsed).filter fun c => c.change.key = k) = true)
    {v w : (WorkspaceId × Bytes) × List TopLevelItem} (hv : v ∈ parsed) (hw : w ∈ parsed)
    (hvne : lastText (variantDocument v) k ≠ lastText (documentOf base baseItems) k)
    (hwne : lastText (variantDocument w) k ≠ lastText (documentOf base baseItems) k) :
    lastText (variantDocument v) k = lastText (variantDocument w) k := by
  rw [filter_constraintsOf] at hsame
  have hmem {u : (WorkspaceId × Bytes) × List TopLevelItem} (hu : u ∈ parsed)
      (hne : lastText (variantDocument u) k ≠ lastText (documentOf base baseItems) k) :
      ∃ c ∈ parsed.filterMap fun v => (changeAt baseItems v.2 k).map (ItemConstraint.mk v.1.1),
        c.change.changeContent = lastText (variantDocument u) k := by
    have hcontent := changeAt_eq base baseItems u k
    rw [if_pos hne] at hcontent
    obtain ⟨change, hchange, hlast⟩ := Option.map_eq_some_iff.mp hcontent
    exact ⟨⟨u.1.1, change⟩, List.mem_filterMap.mpr ⟨u, hu, by rw [hchange]; rfl⟩, hlast⟩
  obtain ⟨c, hc, hcv⟩ := hmem hv hvne
  obtain ⟨d, hd, hdw⟩ := hmem hw hwne
  rw [← hcv, ← hdw]
  generalize parsed.filterMap _ = cs at hsame hc hd
  cases cs with
  | nil => exact absurd hc List.not_mem_nil
  | cons c₀ cs =>
    have hall (x : ItemConstraint) (hx : x ∈ c₀ :: cs) :
        x.change.changeContent = c₀.change.changeContent := by
      rcases List.mem_cons.mp hx with rfl | hx
      · rfl
      · simpa using List.all_eq_true.mp hsame x hx
    rw [hall c hc, hall d hd]

end Outcomes

/-! ### The copied bytes -/

section Copy

variable {base : Bytes} {resolutions : Resolutions} {f : ItemKey → Outcome UInt8}

theorem drop_skipTrailingWhitespace (source : Bytes) (start : ℕ) :
    source.drop (skipTrailingWhitespace source start) = (source.drop start).dropWhile isBlank := by
  rw [skipTrailingWhitespace, ← List.drop_drop]
  generalize source.drop start = bytes
  induction bytes with
  | nil => rfl
  | cons b bytes ih =>
    by_cases hb : isBlank b = true
    · rw [List.takeWhile_cons_of_pos hb, List.dropWhile_cons_of_pos hb, List.length_cons,
        List.drop_succ_cons, ih]
    · rw [List.takeWhile_cons_of_neg hb, List.dropWhile_cons_of_neg hb]
      rfl

theorem slice_skipTrailingWhitespace (source : Bytes) (start stop : ℕ) :
    slice source (skipTrailingWhitespace source start) stop =
      (slice source start stop).dropWhile isBlank := by
  have hstop : stop - skipTrailingWhitespace source start =
      stop - start - ((source.drop start).takeWhile isBlank).length := by
    rw [skipTrailingWhitespace]
    omega
  rw [slice, slice, drop_skipTrailingWhitespace, hstop]
  generalize source.drop start = bytes
  generalize stop - start = n
  induction bytes generalizing n with
  | nil => simp
  | cons b bytes ih =>
    cases n with
    | zero => simp
    | succ n =>
      by_cases hb : isBlank b = true
      · rw [List.takeWhile_cons_of_pos hb, List.dropWhile_cons_of_pos hb, List.take_succ_cons,
          List.dropWhile_cons_of_pos hb, ← ih, List.length_cons, Nat.add_sub_add_right]
      · rw [List.takeWhile_cons_of_neg hb, List.dropWhile_cons_of_neg hb, List.take_succ_cons,
          List.dropWhile_cons_of_neg hb]
        rfl

/-- The place that the base is copied from next. -/
def cursorOf (base : Bytes) (dropped : Bool) (cursor : ℕ) : ℕ :=
  if dropped then skipTrailingWhitespace base cursor else cursor

theorem slice_cursorOf (dropped : Bool) (cursor stop : ℕ) :
    slice base (cursorOf base dropped cursor) stop =
      strip isBlank dropped (slice base cursor stop) := by
  cases dropped with
  | false => rfl
  | true => exact slice_skipTrailingWhitespace ..

theorem drop_cursorOf (dropped : Bool) (cursor : ℕ) :
    base.drop (cursorOf base dropped cursor) = strip isBlank dropped (base.drop cursor) := by
  cases dropped with
  | false => rfl
  | true => exact drop_skipTrailingWhitespace ..

/-- The bytes that are copied are the text of the revised items. -/
theorem copyItems_eq_reviseFrom (items : List TopLevelItem) (index : ℕ)
    (hf : ∀ entry ∈ keyedFrom index items,
      f entry.1 = outcomeOf ((resolutions.get entry.1).map ItemConstraint.change) ∧
        ∀ key item, (resolutions.get entry.1).map ItemConstraint.change ≠ some (.added key item))
    (dropped : Bool) (cursor : ℕ) (result : Bytes) :
    copyItems base resolutions index items (cursorOf base dropped cursor) result =
      result ++ (reviseFrom isBlank f (base.drop (endOf cursor items)) dropped []
        (entriesFrom base index cursor items)).text := by
  induction items generalizing index dropped cursor result with
  | nil =>
    rw [copyItems, drop_cursorOf]
    simp [entriesFrom, reviseFrom, Document.text, endOf]
  | cons item items ih =>
    obtain ⟨hkey, hadded⟩ := hf (item.identityKey index, item) List.mem_cons_self
    have ih' := ih (index + 1) fun entry hentry => hf entry (List.mem_cons_of_mem _ hentry)
    have hfalse (result : Bytes) := ih' false item.endByte result
    have htrue (result : Bytes) := ih' true item.endByte result
    simp only [cursorOf, Bool.false_eq_true, if_false, if_true] at hfalse htrue
    rw [copyItems, entriesFrom, reviseFrom, endOf, slice_cursorOf]
    simp only [hkey, List.nil_append] at *
    cases hget : (resolutions.get (item.identityKey index)).map ItemConstraint.change with
    | none =>
      simp only [outcomeOf]
      rw [hfalse, text_cons]
      simp
    | some change =>
      cases change with
      | modified key baseItem variantItem =>
        simp only [outcomeOf, ItemChange.changeContent]
        rw [hfalse, text_cons]
        simp
      | added key variantItem => exact absurd hget (hadded key variantItem)
      | deleted key baseItem =>
        simp only [outcomeOf, ItemChange.changeContent]
        have hcarried := text_reviseFrom_append isBlank f (base.drop (endOf item.endByte items)) true
          (strip isBlank dropped (slice base cursor item.startByte)) []
          (entriesFrom base (index + 1) item.endByte items)
        rw [List.append_nil] at hcarried
        rw [htrue, hcarried, List.append_assoc]

variable {baseItems : List TopLevelItem} {parsed : ParsedVariants}

/-- The resolutions of a merge without conflicts. -/
abbrev resolved (baseItems : List TopLevelItem) (parsed : ParsedVariants) : Resolutions :=
  resolutionsOf (constraintsByItem (constraintsOf baseItems parsed))

theorem get_resolved
    (hconflicts : conflictsOf (constraintsByItem (constraintsOf baseItems parsed)) = [])
    (k : ItemKey) : (resolved baseItems parsed).get k =
      (parsed.filterMap fun v => (changeAt baseItems v.2 k).map (ItemConstraint.mk v.1.1)).head? := by
  rw [get_resolutionsOf hconflicts, filter_constraintsOf]

theorem outcomeOf_get_resolved (base : Bytes)
    (hconflicts : conflictsOf (constraintsByItem (constraintsOf baseItems parsed)) = [])
    (k : ItemKey) :
    outcomeOf (((resolved baseItems parsed).get k).map ItemConstraint.change) =
      outcome (documentOf base baseItems) (parsed.map variantDocument) k := by
  rw [get_resolutionsOf hconflicts, outcomeOf_head?]

/-- Items are added only with keys that the base has not. -/
theorem itemMap_of_get_resolved
    (hconflicts : conflictsOf (constraintsByItem (constraintsOf baseItems parsed)) = [])
    {k key : ItemKey} {item : TopLevelItem}
    (h : ((resolved baseItems parsed).get k).map ItemConstraint.change = some (.added key item)) :
    key = k ∧ itemMap baseItems k = none := by
  obtain ⟨c, hget, hc⟩ := Option.map_eq_some_iff.mp h
  rw [get_resolved hconflicts] at hget
  obtain ⟨v, -, hv⟩ := List.mem_filterMap.mp (List.mem_of_mem_head? hget)
  obtain ⟨change, hchange, rfl⟩ := Option.map_eq_some_iff.mp hv
  obtain rfl : change = .added key item := hc
  refine ⟨key_of_changeAt hchange, ?_⟩
  unfold changeAt at hchange
  split at hchange
  · split_ifs at hchange
    cases hchange
  · cases hchange
  · assumption
  · cases hchange

/-- The bytes that are copied are the text of the revised base. -/
theorem copyItems_eq (base : Bytes)
    (hconflicts : conflictsOf (constraintsByItem (constraintsOf baseItems parsed)) = []) :
    copyItems base (resolved baseItems parsed) 0 baseItems 0 [] =
      (mergedBody (documentOf base baseItems) (parsed.map variantDocument)).text := by
  refine copyItems_eq_reviseFrom baseItems 0 (fun entry hentry => ⟨?_, ?_⟩) false 0 []
  · exact (outcomeOf_get_resolved base hconflicts entry.1).symm
  · intro key item hadded
    exact itemMap_eq_none_iff.mp (itemMap_of_get_resolved hconflicts hadded).2 entry hentry rfl

end Copy

end Maw.Ast
