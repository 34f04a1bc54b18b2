import Mathlib.Data.List.Shortlex
import Mathlib.Order.Defs.LinearOrder
import Mathlib.Data.Nat.Basic

/-!
# Breadth-first search in the order of paths

A breadth-first search keeps a queue and the nodes that it has seen. It sees each node by the
first of the paths to it, shorter paths coming before longer ones and paths of one length in the
order of their first different choice; and it sees the nodes in the order of these first paths.

## Main definitions

* `PathTo` — paths as lists of choices.
* `Search` — the runs of a search.
* `Precedes` — one node has a path before all paths to another one.

## Main results

* `Search.sorted` — the nodes that are seen, with their first paths.
* `Search.nodup`, `Search.mem_iff` — every node that can be reached is seen once.
* `Search.before_iff` — which nodes are seen before which.
-/

namespace BreadthFirst

variable {α : Type*}

/-- The choices of the list lead from the root to the node. -/
inductive PathTo (next : α → List α) (root : α) : List ℕ → α → Prop
  | root : PathTo next root [] root
  | step {path : List ℕ} {a b : α} {i : ℕ} (h : PathTo next root path a)
      (hi : (next a)[i]? = some b) : PathTo next root (path ++ [i]) b

/-- The runs of a breadth-first search from a queue and the nodes that have been seen to all that
are seen in the end. -/
inductive Search [DecidableEq α] (next : α → List α) : List α → List α → List α → Prop
  | done (seen : List α) : Search next [] seen seen
  | skip {a : α} {queue seen result : List α} (ha : a ∈ seen) (h : Search next queue seen result) :
      Search next (a :: queue) seen result
  | visit {a : α} {queue seen result : List α} (ha : a ∉ seen)
      (h : Search next (queue ++ (next a).filter (· ∉ seen ++ [a])) (seen ++ [a]) result) :
      Search next (a :: queue) seen result

theorem pathTo_nil {next : α → List α} {root b : α} : PathTo next root [] b ↔ b = root := by
  constructor
  · intro h
    generalize hpath : ([] : List ℕ) = path at h
    cases h with
    | root => rfl
    | step => simp at hpath
  · rintro rfl
    exact .root

/-- Of two paths the first one comes before the second one. -/
def Before (p q : List ℕ) : Prop := List.Shortlex (· < ·) p q

/-- A path to the one node comes before all paths to the other one. -/
def Precedes (next : α → List α) (root a b : α) : Prop :=
  ∀ q, PathTo next root q b → ∃ p, PathTo next root p a ∧ Before p q

/-- The root comes before all other nodes. -/
theorem precedes_root {next : α → List α} {root b : α} (hb : b ≠ root) :
    Precedes next root root b := by
  intro q hq
  refine ⟨[], .root, .of_length_lt ?_⟩
  rcases q with _ | ⟨i, q⟩
  · exact absurd (pathTo_nil.mp hq) hb
  · simp

section Order

variable {p q r : List ℕ} {i j : ℕ}

theorem before_iff : Before p q ↔ p.length < q.length ∨ p.length = q.length ∧ p < q :=
  List.shortlex_def

theorem Before.trans (h : Before p q) (h' : Before q r) : Before p r := by
  rw [before_iff] at h h' ⊢
  rcases h with h | ⟨h, hlt⟩ <;> rcases h' with h' | ⟨h', hlt'⟩
  · exact .inl (h.trans h')
  · exact .inl (h' ▸ h)
  · exact .inl (h.symm ▸ h')
  · exact .inr ⟨h.trans h', hlt.trans hlt'⟩

theorem Before.irrefl (p : List ℕ) : ¬ Before p p := by
  rw [before_iff]
  rintro (h | ⟨-, h⟩)
  · exact lt_irrefl _ h
  · exact lt_irrefl _ h

theorem Before.asymm (h : Before p q) : ¬ Before q p := fun h' => Before.irrefl p (h.trans h')

/-- A path comes before its continuations. -/
theorem before_append (p : List ℕ) (i : ℕ) : Before p (p ++ [i]) :=
  .of_length_lt (by simp)

theorem before_append_of_lt (h : i < j) : Before (p ++ [i]) (p ++ [j]) :=
  List.Shortlex.append_left ((List.shortlex_singleton_iff i j).mpr h) p

private theorem lex_append {s t : List ℕ} (h : List.Lex (· < ·) p q) (hlength : p.length = q.length) :
    List.Lex (· < ·) (p ++ s) (q ++ t) := by
  induction h with
  | nil => simp at hlength
  | cons _ ih => exact .cons (ih (by simpa using hlength))
  | rel hlt => exact .rel hlt

/-- Continuations come in the order of the paths. -/
theorem Before.append (h : Before p q) (i j : ℕ) : Before (p ++ [i]) (q ++ [j]) := by
  rcases List.shortlex_def.mp h with h | ⟨hlength, hlex⟩
  · exact .of_length_lt (by simpa using h)
  · exact .of_lex (by simpa using hlength) (lex_append hlex hlength)

/-- The one path is the other one or comes before it. -/
def AtMost (p q : List ℕ) : Prop := p = q ∨ Before p q

theorem AtMost.append (h : AtMost p q) (i : ℕ) : AtMost (p ++ [i]) (q ++ [i]) := by
  rcases h with rfl | h
  · exact .inl rfl
  · exact .inr (h.append i i)

theorem AtMost.trans_before (h : AtMost p q) (h' : Before q r) : Before p r := by
  rcases h with rfl | h
  · exact h'
  · exact h.trans h'

theorem Before.trans_atMost (h : Before p q) (h' : AtMost q r) : Before p r := by
  rcases h' with rfl | h'
  · exact h
  · exact h.trans h'

end Order

/-! ### What holds during a search -/

/-- The seen nodes with their first paths and the queue with the paths that it was filled by. -/
structure Explored (next : α → List α) (root : α) (seen queue : List (List ℕ × α)) : Prop where
  valid : ∀ e ∈ seen ++ queue, PathTo next root e.1 e.2
  sorted : (seen ++ queue).Pairwise fun e f => Before e.1 f.1
  origin : ∀ e ∈ queue, e.1 = [] ∨ ∃ f ∈ seen, ∃ i, e.1 = f.1 ++ [i]
  first : ∀ e ∈ seen, ∀ p, PathTo next root p e.2 → AtMost e.1 p
  rootFound : root ∈ seen.map Prod.snd ∨ ([], root) ∈ queue
  closed : ∀ e ∈ seen, ∀ i b, (next e.2)[i]? = some b →
    b ∈ seen.map Prod.snd ∨ (e.1 ++ [i], b) ∈ queue

namespace Explored

variable {next : α → List α} {root : α} {seen queue : List (List ℕ × α)} {e : List ℕ × α}

theorem start (next : α → List α) (root : α) : Explored next root [] [([], root)] where
  valid e he := by
    obtain rfl := List.mem_singleton.mp he
    exact .root
  sorted := List.pairwise_singleton _ _
  origin e he := .inl (by rw [List.mem_singleton.mp he])
  first e he := absurd he List.not_mem_nil
  rootFound := .inr List.mem_cons_self
  closed e he := absurd he List.not_mem_nil

/-- Every path leads to a seen node, or something unseen in the queue is not after it. -/
theorem covered (h : Explored next root seen queue) {p : List ℕ} {b : α}
    (hp : PathTo next root p b) : (∃ e ∈ seen, e.2 = b ∧ AtMost e.1 p) ∨
      ∃ e ∈ queue, e.2 ∉ seen.map Prod.snd ∧ AtMost e.1 p := by
  induction hp with
  | root =>
    by_cases hroot : root ∈ seen.map Prod.snd
    · obtain ⟨e, he, rfl⟩ := List.mem_map.mp hroot
      exact .inl ⟨e, he, rfl, h.first e he [] .root⟩
    · exact .inr ⟨_, h.rootFound.resolve_left hroot, hroot, .inl rfl⟩
  | @step p a b i hp hi ih =>
    rcases ih with ⟨e, he, rfl, hle⟩ | ⟨e, he, hunseen, hle⟩
    · by_cases hb : b ∈ seen.map Prod.snd
      · obtain ⟨f, hf, rfl⟩ := List.mem_map.mp hb
        exact .inl ⟨f, hf, rfl, h.first f hf _ (.step hp hi)⟩
      · exact .inr ⟨_, (h.closed e he i b hi).resolve_left hb, hb, hle.append i⟩
    · exact .inr ⟨e, he, hunseen, .inr (hle.trans_before (before_append p i))⟩

/-- A node that was seen already is dropped from the queue. -/
theorem skip (h : Explored next root seen (e :: queue)) (he : e.2 ∈ seen.map Prod.snd) :
    Explored next root seen queue where
  valid f hf := h.valid f (by
    rcases List.mem_append.mp hf with hf | hf
    · exact List.mem_append_left _ hf
    · exact List.mem_append_right _ (List.mem_cons_of_mem e hf))
  sorted := h.sorted.sublist (List.Sublist.append_left (List.sublist_cons_self e queue) seen)
  origin f hf := h.origin f (List.mem_cons_of_mem e hf)
  first := h.first
  rootFound := by
    rcases h.rootFound with hroot | hroot
    · exact .inl hroot
    · rcases List.mem_cons.mp hroot with rfl | hroot
      · exact .inl he
      · exact .inr hroot
  closed f hf i b hi := by
    rcases h.closed f hf i b hi with hb | hb
    · exact .inl hb
    · rcases List.mem_cons.mp hb with rfl | hb
      · exact .inl he
      · exact .inr hb

/-- The first path to a node that was not seen before is the one that the queue has for it. -/
theorem first_of_unseen (h : Explored next root seen (e :: queue)) (he : e.2 ∉ seen.map Prod.snd)
    {p : List ℕ} (hp : PathTo next root p e.2) : AtMost e.1 p := by
  rcases h.covered hp with ⟨f, hf, hfe, -⟩ | ⟨f, hf, -, hle⟩
  · exact absurd (hfe ▸ List.mem_map_of_mem hf) he
  · rcases List.mem_cons.mp hf with rfl | hf
    · exact hle
    · have hbefore : Before e.1 f.1 :=
        (List.pairwise_cons.mp (List.pairwise_append.mp h.sorted).2.1).1 f hf
      exact .inr (hbefore.trans_atMost hle)

end Explored

section Visit

variable [DecidableEq α] {next : α → List α} {root : α} {seen queue : List (List ℕ × α)}
  {e : List ℕ × α}

/-- The successors of a node that have not been seen, with the paths to them. -/
def successors (next : α → List α) (seen : List α) (e : List ℕ × α) : List (List ℕ × α) :=
  ((next e.2).zipIdx.filter fun x => x.1 ∉ seen).map fun x => (e.1 ++ [x.2], x.1)

theorem map_snd_successors (seen : List α) :
    (successors next seen e).map Prod.snd = (next e.2).filter (· ∉ seen) := by
  have hfilter : ((next e.2).zipIdx.map Prod.fst).filter (· ∉ seen) =
      ((next e.2).zipIdx.filter fun x => x.1 ∉ seen).map Prod.fst := List.filter_map
  rw [List.zipIdx_map_fst] at hfilter
  rw [hfilter, successors, List.map_map]
  rfl

theorem mem_successors {seen : List α} {f : List ℕ × α} : f ∈ successors next seen e ↔
    f.2 ∉ seen ∧ ∃ i, f.1 = e.1 ++ [i] ∧ (next e.2)[i]? = some f.2 := by
  rw [successors, List.mem_map]
  constructor
  · rintro ⟨x, hx, rfl⟩
    obtain ⟨hmem, hunseen⟩ := List.mem_filter.mp hx
    exact ⟨by simpa using hunseen, x.2, rfl, List.mem_zipIdx_iff_getElem?.mp hmem⟩
  · rintro ⟨hunseen, i, hpath, hi⟩
    refine ⟨(f.2, i), List.mem_filter.mpr ⟨List.mem_zipIdx_iff_getElem?.mpr hi, ?_⟩, ?_⟩
    · simpa using hunseen
    · exact Prod.ext hpath.symm rfl

theorem successors_sorted (seen : List α) :
    (successors next seen e).Pairwise fun f g => Before f.1 g.1 := by
  rw [successors, List.pairwise_map]
  refine List.Pairwise.filter _ ?_
  have hsorted : ((next e.2).zipIdx.map Prod.snd).Pairwise (· < ·) := by
    rw [List.zipIdx_map_snd]
    exact List.pairwise_lt_range'
  exact (List.pairwise_map.mp hsorted).imp fun hlt => before_append_of_lt hlt

/-- A node that was not seen before is seen, and its successors come to the end of the queue. -/
theorem Explored.visit (h : Explored next root seen (e :: queue))
    (he : e.2 ∉ seen.map Prod.snd) : Explored next root (seen ++ [e])
      (queue ++ successors next (seen.map Prod.snd ++ [e.2]) e) := by
  have hvalid : PathTo next root e.1 e.2 := h.valid e (by simp)
  -- Everything that the search has found so far comes before the successors.
  have hlast : ∀ f ∈ seen ++ [e], AtMost f.1 e.1 := by
    intro f hf
    rcases List.mem_append.mp hf with hf | hf
    · exact .inr ((List.pairwise_append.mp h.sorted).2.2 f hf e List.mem_cons_self)
    · exact .inl (by rw [List.mem_singleton.mp hf])
  have hqueue : ∀ f ∈ queue, f.1 = [] ∨ ∃ g ∈ seen, ∃ i, f.1 = g.1 ++ [i] :=
    fun f hf => h.origin f (List.mem_cons_of_mem e hf)
  have hbefore : ∀ f ∈ (seen ++ [e]) ++ queue,
      ∀ g ∈ successors next (seen.map Prod.snd ++ [e.2]) e, Before f.1 g.1 := by
    intro f hf g hg
    obtain ⟨-, i, hpath, -⟩ := mem_successors.mp hg
    rw [hpath]
    rcases List.mem_append.mp hf with hf | hf
    · exact (hlast f hf).trans_before (before_append e.1 i)
    · rcases hqueue f hf with hnil | ⟨f', hf', j, hf''⟩
      · rw [hnil]
        exact .of_length_lt (by simp)
      · rw [hf'']
        exact ((List.pairwise_append.mp h.sorted).2.2 f' hf' e List.mem_cons_self).append j i
  have hsorted : (seen ++ [e] ++ queue).Pairwise fun f g => Before f.1 g.1 := by
    rw [List.append_assoc, List.singleton_append]
    exact h.sorted
  refine ⟨fun f hf => ?_, ?_, fun f hf => ?_, fun f hf p hp => ?_, ?_, fun f hf i b hi => ?_⟩
  · rw [← List.append_assoc] at hf
    rcases List.mem_append.mp hf with hf | hf
    · exact h.valid f (by simpa using hf)
    · obtain ⟨-, i, hpath, hi⟩ := mem_successors.mp hf
      rw [hpath]
      exact .step hvalid hi
  · rw [← List.append_assoc, List.pairwise_append]
    exact ⟨hsorted, successors_sorted _, hbefore⟩
  · rcases List.mem_append.mp hf with hf | hf
    · rcases hqueue f hf with hnil | ⟨g, hg, i, hpath⟩
      · exact .inl hnil
      · exact .inr ⟨g, List.mem_append_left _ hg, i, hpath⟩
    · obtain ⟨-, i, hpath, -⟩ := mem_successors.mp hf
      exact .inr ⟨e, List.mem_append_right _ List.mem_cons_self, i, hpath⟩
  · rcases List.mem_append.mp hf with hf | hf
    · exact h.first f hf p hp
    · obtain rfl := List.mem_singleton.mp hf
      exact h.first_of_unseen he hp
  · rw [List.map_append, List.mem_append]
    rcases h.rootFound with hroot | hroot
    · exact .inl (.inl hroot)
    · rcases List.mem_cons.mp hroot with heq | hroot
      · exact .inl (.inr (by rw [← heq]; exact List.mem_cons_self))
      · exact .inr (List.mem_append_left _ hroot)
  · rw [List.map_append, List.map_singleton]
    by_cases hb : b ∈ seen.map Prod.snd ++ [e.2]
    · exact .inl hb
    refine .inr ?_
    rcases List.mem_append.mp hf with hf | hf
    · rcases h.closed f hf i b hi with hseen | hin
      · exact absurd (List.mem_append_left _ hseen) hb
      · rcases List.mem_cons.mp hin with heq | hin
        · exact absurd (List.mem_append_right _ (by rw [← heq]; exact List.mem_cons_self)) hb
        · exact List.mem_append_left _ hin
    · obtain rfl := List.mem_singleton.mp hf
      exact List.mem_append_right _ (mem_successors.mpr ⟨hb, i, rfl, hi⟩)

/-- A search goes on until its queue is empty. -/
theorem Search.explored {queueNodes seenNodes result : List α}
    (hrun : Search next queueNodes seenNodes result) :
    ∀ seen queue : List (List ℕ × α), seen.map Prod.snd = seenNodes →
      queue.map Prod.snd = queueNodes → Explored next root seen queue →
      ∃ found, found.map Prod.snd = result ∧ Explored next root found [] := by
  induction hrun with
  | done =>
    intro seen queue hseen hqueue h
    rw [List.map_eq_nil_iff] at hqueue
    exact ⟨seen, hseen, hqueue ▸ h⟩
  | skip ha _ ih =>
    intro seen queue hseen hqueue h
    obtain ⟨e, queue', rfl, rfl, htail⟩ := List.map_eq_cons_iff.mp hqueue
    exact ih seen queue' hseen htail (h.skip (hseen ▸ ha))
  | visit ha _ ih =>
    intro seen queue hseen hqueue h
    obtain ⟨e, queue', rfl, rfl, htail⟩ := List.map_eq_cons_iff.mp hqueue
    refine ih (seen ++ [e]) (queue' ++ successors next (seen.map Prod.snd ++ [e.2]) e) ?_ ?_
      (h.visit (hseen ▸ ha))
    · rw [List.map_append, hseen, List.map_singleton]
    · rw [List.map_append, htail, map_snd_successors, hseen]

/-- A search from one node sees the nodes in the order of the first paths to them. -/
theorem Search.sorted {result : List α} (h : Search next [root] [] result) :
    ∃ found : List (List ℕ × α), found.map Prod.snd = result ∧
      found.Pairwise (fun e f => Before e.1 f.1) ∧
      (∀ e ∈ found, PathTo next root e.1 e.2 ∧ ∀ p, PathTo next root p e.2 → AtMost e.1 p) ∧
      ∀ p b, PathTo next root p b → ∃ e ∈ found, e.2 = b := by
  obtain ⟨found, hresult, hexplored⟩ := h.explored [] [([], root)] rfl rfl (.start next root)
  refine ⟨found, hresult, by simpa using hexplored.sorted,
    fun e he => ⟨hexplored.valid e (by simpa using he), hexplored.first e he⟩, fun p b hp => ?_⟩
  rcases hexplored.covered hp with ⟨e, he, heq, -⟩ | ⟨e, he, -⟩
  · exact ⟨e, he, heq⟩
  · exact absurd he List.not_mem_nil

/-- No node is seen twice. -/
theorem Search.nodup {result : List α} (h : Search next [root] [] result) : result.Nodup := by
  obtain ⟨found, rfl, hsorted, hfirst, -⟩ := h.sorted
  rw [List.Nodup, List.pairwise_map]
  refine List.Pairwise.imp_of_mem (fun {e f} he hf hbefore heq => ?_) hsorted
  have hle := (hfirst f hf).2 e.1 (heq ▸ (hfirst e he).1)
  exact Before.irrefl e.1 (hbefore.trans_atMost hle)

/-- What is seen is what paths lead to. -/
theorem Search.mem_iff {result : List α} (h : Search next [root] [] result) {a : α} :
    a ∈ result ↔ ∃ p, PathTo next root p a := by
  obtain ⟨found, rfl, -, hfirst, hall⟩ := h.sorted
  constructor
  · intro ha
    obtain ⟨e, he, rfl⟩ := List.mem_map.mp ha
    exact ⟨e.1, (hfirst e he).1⟩
  · rintro ⟨p, hp⟩
    obtain ⟨e, he, rfl⟩ := hall p a hp
    exact List.mem_map_of_mem he

/-- One of two nodes that can be reached is seen before the other one exactly when it has a path
before all paths to the other one. -/
theorem Search.before_iff {result l₁ l₂ : List α} {a b : α} (h : Search next [root] [] result)
    (hresult : result = l₁ ++ a :: l₂) (hb : ∃ p, PathTo next root p b) :
    b ∈ l₂ ↔ Precedes next root a b := by
  obtain ⟨found, rfl, hsorted, hfirst, hall⟩ := h.sorted
  obtain ⟨found₁, rest, rfl, rfl, hrest⟩ := List.map_eq_append_iff.mp hresult
  obtain ⟨e, found₂, rfl, rfl, rfl⟩ := List.map_eq_cons_iff.mp hrest
  rw [List.pairwise_append, List.pairwise_cons] at hsorted
  obtain ⟨-, ⟨hafter, -⟩, hacross⟩ := hsorted
  have he := hfirst e (by simp)
  constructor
  · intro hmem q hq
    obtain ⟨f, hf, rfl⟩ := List.mem_map.mp hmem
    exact ⟨e.1, he.1, (hafter f hf).trans_atMost ((hfirst f (by simp [hf])).2 q hq)⟩
  · intro hprecedes
    obtain ⟨p, hp⟩ := hb
    obtain ⟨f, hf, rfl⟩ := hall p b hp
    obtain ⟨q, hq, hbefore⟩ := hprecedes f.1 (hfirst f hf).1
    have hef : Before e.1 f.1 := (he.2 q hq).trans_before hbefore
    rcases List.mem_append.mp hf with hf | hf
    · exact absurd (hacross f hf e List.mem_cons_self) hef.asymm
    · rcases List.mem_cons.mp hf with rfl | hf
      · exact absurd hef (Before.irrefl _)
      · exact List.mem_map_of_mem hf

end Visit

end BreadthFirst
