import Mathlib.Data.List.AList
import Maw.Merge.DiffExtract

/-!
# What the epoch changed

A rebase compares the old epoch with the new one and remembers, for every path the transition
changed, the blob on either side. A rename of the epoch is remembered at both of its paths; at
its destination the old side is the blob of the source.

## Main definitions

* `EpochDelta` — the map of changed paths.
* `buildEpochDeltaMap` — the map of a report of differences.
* `IsEpochDelta` — a map built from a right report, in any order of iteration.

## Main results

* `IsEpochDelta.lookup_eq_none` — the paths that are not in the map.
* `IsEpochDelta.lookup_eq_some` — the two sides of a path in the map.
-/

namespace Maw

/-- The blobs of the old and the new epoch at a path. -/
abbrev DeltaSides := Option GitOid × Option GitOid

/-- For every path the epoch changed, its old and its new blob. The order of the entries is the
order in which the code iterates over the map. -/
abbrev EpochDelta := AList fun _ : Path => DeltaSides

namespace DiffEntry

/-- The path of a difference in the new tree, or in the old tree for a deletion. -/
def path : DiffEntry → Path
  | added p _ | modified p _ _ | deleted p _ | renamed _ p _ _ => p

def oldOid : DiffEntry → Option GitOid
  | added _ _ => none
  | modified _ o _ | deleted _ o | renamed _ _ o _ => some o.oid

def newOid : DiffEntry → Option GitOid
  | deleted _ _ => none
  | added _ n | modified _ _ n | renamed _ _ _ n => some n.oid

end DiffEntry

/-- Enter one difference. The source of a rename looks deleted to the workspace. -/
def insertDiffEntry (map : EpochDelta) (entry : DiffEntry) : EpochDelta :=
  let map := map.insert entry.path (entry.oldOid, entry.newOid)
  match entry with
  | .renamed source _ o _ => map.insert source (some o.oid, none)
  | _ => map

/-- The map of a report of the differences between two epochs. -/
def buildEpochDeltaMap (entries : List DiffEntry) : EpochDelta :=
  entries.foldl insertDiffEntry ∅

/-- A map of the changes between two epochs, iterated over in any order. -/
def IsEpochDelta (oldEpoch newEpoch : GitTree) (delta : EpochDelta) : Prop :=
  ∃ entries, IsDelta oldEpoch newEpoch entries ∧
    delta.entries.Perm (buildEpochDeltaMap entries).entries

namespace EpochDelta

/-- The epoch has a file with a new blob at the path. -/
def liveAt (delta : EpochDelta) (p : Path) : Option GitOid :=
  (delta.lookup p).bind Prod.snd

end EpochDelta

/-- What an entry of the map says about the epochs. -/
structure DeltaSides.Holds (oldEpoch newEpoch : GitTree) (p : Path) (sides : DeltaSides) :
    Prop where
  changed : oldEpoch.lookup p ≠ newEpoch.lookup p
  new_eq : sides.2 = (newEpoch.lookup p).map (·.oid)
  /-- The old side is the old blob of the path, or that of the source of a rename to it. -/
  old_eq : sides.1 = (oldEpoch.lookup p).map (·.oid) ∨
    oldEpoch.lookup p = none ∧ newEpoch.lookup p ≠ none ∧
      ∃ f o, oldEpoch.lookup f = some o ∧ newEpoch.lookup f = none ∧ sides.1 = some o.oid

private theorem lookup_insertDiffEntry_of_notMem (map : EpochDelta) {e : DiffEntry} {p : Path}
    (hp : p ∉ e.paths) : (insertDiffEntry map e).lookup p = map.lookup p := by
  cases e with
  | renamed f q o n =>
    rw [DiffEntry.paths, List.mem_pair, not_or] at hp
    rw [insertDiffEntry, AList.lookup_insert_ne hp.1]
    exact AList.lookup_insert_ne hp.2
  | _ =>
    rw [DiffEntry.paths, List.mem_singleton] at hp
    exact AList.lookup_insert_ne hp

private theorem lookup_insertDiffEntry_of_mem (map : EpochDelta) {oldEpoch newEpoch : GitTree}
    {e : DiffEntry} {p : Path} (he : e.Holds oldEpoch newEpoch) (hp : p ∈ e.paths) :
    ∃ sides, (insertDiffEntry map e).lookup p = some sides ∧
      DeltaSides.Holds oldEpoch newEpoch p sides := by
  have hchanged := he.lookup_ne hp
  cases e with
  | renamed f q o n =>
    obtain ⟨hf, hf', hq, hq'⟩ := he
    by_cases hpf : p = f
    · subst hpf
      refine ⟨_, AList.lookup_insert _, hchanged, by rw [hf']; rfl, .inl (by rw [hf]; rfl)⟩
    · obtain rfl : p = q := by
        rw [DiffEntry.paths, List.mem_pair] at hp
        exact hp.resolve_left hpf
      refine ⟨(some o.oid, some n.oid), ?_, hchanged, by rw [hq']; rfl, .inr ⟨hq, ?_, ?_⟩⟩
      · rw [insertDiffEntry, AList.lookup_insert_ne hpf]
        exact AList.lookup_insert _
      · rw [hq']
        exact Option.some_ne_none n
      · exact ⟨f, o, hf, hf', rfl⟩
  | added q n =>
    obtain rfl := List.mem_singleton.mp hp
    exact ⟨_, AList.lookup_insert _, hchanged, by rw [he.2]; rfl, .inl (by rw [he.1]; rfl)⟩
  | modified q o n =>
    obtain rfl := List.mem_singleton.mp hp
    exact ⟨_, AList.lookup_insert _, hchanged, by rw [he.2.1]; rfl, .inl (by rw [he.1]; rfl)⟩
  | deleted q o =>
    obtain rfl := List.mem_singleton.mp hp
    exact ⟨_, AList.lookup_insert _, hchanged, by rw [he.2]; rfl, .inl (by rw [he.1]; rfl)⟩

private theorem lookup_foldl_insertDiffEntry {oldEpoch newEpoch : GitTree} {p : Path}
    {entries : List DiffEntry} (hholds : ∀ e ∈ entries, e.Holds oldEpoch newEpoch)
    (map : EpochDelta) (hmap : ∀ sides, map.lookup p = some sides →
      DeltaSides.Holds oldEpoch newEpoch p sides) :
    (∀ sides, (entries.foldl insertDiffEntry map).lookup p = some sides →
        DeltaSides.Holds oldEpoch newEpoch p sides) ∧
      (p ∈ entries.flatMap DiffEntry.paths ∨ map.lookup p ≠ none →
        (entries.foldl insertDiffEntry map).lookup p ≠ none) := by
  induction entries generalizing map with
  | nil => exact ⟨hmap, fun h => h.resolve_left (by simp)⟩
  | cons e entries ih =>
    have he := hholds e List.mem_cons_self
    rw [List.foldl_cons, List.flatMap_cons, List.mem_append]
    by_cases hp : p ∈ e.paths
    · obtain ⟨sides, hlookup, hsides⟩ := lookup_insertDiffEntry_of_mem map he hp
      obtain ⟨hall, hne⟩ := ih (fun e' he' => hholds e' (List.mem_cons_of_mem e he'))
        (insertDiffEntry map e) fun s hs => by
          rw [hlookup] at hs
          exact Option.some.inj hs ▸ hsides
      exact ⟨hall, fun _ => hne (.inr (by simp [hlookup]))⟩
    · have hlookup := lookup_insertDiffEntry_of_notMem map hp
      obtain ⟨hall, hne⟩ := ih (fun e' he' => hholds e' (List.mem_cons_of_mem e he'))
        (insertDiffEntry map e) fun s hs => hmap s (hlookup ▸ hs)
      refine ⟨hall, fun h => hne ?_⟩
      rw [hlookup]
      exact h.imp (fun h => h.resolve_left hp) id

namespace IsEpochDelta

variable {oldEpoch newEpoch : GitTree} {delta : EpochDelta}

/-- Every entry of the map is right about the epochs. -/
theorem lookup_eq_some (h : IsEpochDelta oldEpoch newEpoch delta) {p : Path} {sides : DeltaSides}
    (hp : delta.lookup p = some sides) : sides.Holds oldEpoch newEpoch p := by
  obtain ⟨entries, hd, hperm⟩ := h
  rw [AList.perm_lookup hperm] at hp
  exact (lookup_foldl_insertDiffEntry hd.holds ∅ (by simp)).1 sides hp

/-- The map has no entry exactly where the epochs agree. -/
theorem lookup_eq_none (h : IsEpochDelta oldEpoch newEpoch delta) {p : Path} :
    delta.lookup p = none ↔ oldEpoch.lookup p = newEpoch.lookup p := by
  constructor
  · intro hp
    obtain ⟨entries, hd, hperm⟩ := h
    rw [AList.perm_lookup hperm] at hp
    by_contra hne
    exact (lookup_foldl_insertDiffEntry hd.holds ∅ (by simp)).2 (.inl (hd.complete p hne)) hp
  · intro heq
    cases hp : delta.lookup p with
    | none => rfl
    | some sides => exact absurd heq (h.lookup_eq_some hp).changed

/-- Where the epochs differ the map holds the new blob. -/
theorem lookup_of_ne (h : IsEpochDelta oldEpoch newEpoch delta) {p : Path}
    (hne : oldEpoch.lookup p ≠ newEpoch.lookup p) :
    ∃ refOld, delta.lookup p = some (refOld, (newEpoch.lookup p).map (·.oid)) := by
  cases hp : delta.lookup p with
  | none => exact absurd (h.lookup_eq_none.mp hp) hne
  | some sides => exact ⟨sides.1, by rw [← (h.lookup_eq_some hp).new_eq]⟩

end IsEpochDelta

end Maw
