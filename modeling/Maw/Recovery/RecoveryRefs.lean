import Maw.Core.Refs
import Maw.Library.FixedWidth
import Maw.Oplog.Types

/-!
# Recovery refs

What a workspace held is pinned under a ref that is named by the workspace and the time. Pins that
were taken before a clean or after a failed audit have a mark before the time.

## Main definitions

* `UtcTime` — a time of the clock, and its text.
* `Pin`, `Pin.refName` — a pin and the ref that holds it.
* `parseRecoveryRefName` — the workspace and the suffix of a recovery ref.
* `IsRecoveryListing` — the recovery refs in some order.
* `LayoutFlavor` — where the workspaces of a repository are.

## Main results

* `UtcTime.safe_lt_iff` — the texts of times are ordered as the times are.
* `Pin.suffix_lt_iff` — the suffixes of pins are ordered by their marks, then by time.
* `parseRecoveryRefName_refName` — the ref of a pin is read back.
-/

namespace Maw

/-- A time of the clock as a calendar date, with nanoseconds. -/
structure UtcTime where
  year : ℕ
  month : ℕ
  day : ℕ
  hour : ℕ
  minute : ℕ
  second : ℕ
  nanos : ℕ
  year_lt : year < 10 ^ 4
  month_lt : month < 10 ^ 2
  day_lt : day < 10 ^ 2
  hour_lt : hour < 10 ^ 2
  minute_lt : minute < 10 ^ 2
  second_lt : second < 10 ^ 2
  nanos_lt : nanos < 10 ^ 9
  deriving DecidableEq

namespace UtcTime

def fields (t : UtcTime) : List ℕ := [t.year, t.month, t.day, t.hour, t.minute, t.second, t.nanos]

theorem fields_injective : Function.Injective fields := by
  rintro ⟨⟩ ⟨⟩ h
  simpa [fields] using h

instance : LinearOrder UtcTime := LinearOrder.lift' fields fields_injective

theorem lt_iff {t t' : UtcTime} : t < t' ↔ t.fields < t'.fields := Iff.rfl

def widths : List (ℕ × List Char) :=
  [(4, ['-']), (2, ['-']), (2, ['T']), (2, [':']), (2, [':']), (2, ['.']), (9, ['Z'])]

/-- The text of a time. -/
def precise (t : UtcTime) : List Char := FixedWidth.render widths t.fields

/-- The text of a time in the name of a ref, without colons. -/
def safe (t : UtcTime) : List Char := t.precise.map fun c => if c = ':' then '-' else c

theorem fits (t : UtcTime) (widths : List (ℕ × List Char))
    (h : widths.map Prod.fst = [4, 2, 2, 2, 2, 2, 9]) : FixedWidth.Fits widths t.fields := by
  have hall : List.Forall₂ (fun width n => n < 10 ^ width) [4, 2, 2, 2, 2, 2, 9] t.fields := by
    simpa [fields] using ⟨t.year_lt, t.month_lt, t.day_lt, t.hour_lt, t.minute_lt, t.second_lt,
      t.nanos_lt⟩
  rw [← h, List.forall₂_map_left_iff] at hall
  exact hall

theorem safe_eq (t : UtcTime) : t.safe = FixedWidth.render
    (widths.map fun field => (field.1, field.2.map fun c => if c = ':' then '-' else c)) t.fields :=
  FixedWidth.map_render (by decide)

/-- The texts of times are ordered as the times are. -/
theorem safe_lt_iff {t t' : UtcTime} : t.safe < t'.safe ↔ t < t' := by
  rw [safe_eq, safe_eq, FixedWidth.render_lt_iff (t.fits _ rfl) (t'.fits _ rfl), lt_iff]

/-- The text of a time begins with a digit. -/
theorem exists_safe_eq (t : UtcTime) : ∃ n < 10, ∃ rest, t.safe = FixedWidth.digit n :: rest := by
  refine ⟨t.year / 10 / 10 / 10 % 10, Nat.mod_lt _ (by decide), ?_⟩
  rw [safe_eq]
  exact ⟨_, rfl⟩

end UtcTime

/-- What a pin was taken for: a destruction or an undo, a clean, or a failed audit. -/
inductive PinKind
  | plain
  | clean
  | invariant
  deriving DecidableEq, Repr

namespace PinKind

def rank : PinKind → ℕ
  | plain => 0
  | clean => 1
  | invariant => 2

theorem rank_injective : Function.Injective rank := by
  rintro (_ | _ | _) (_ | _ | _) h <;> first | rfl | cases h

/-- What stands before the time. -/
def mark : PinKind → List Char
  | plain => []
  | clean => "clean-".toList
  | invariant => "invariant-".toList

@[simp]
theorem mark_plain : mark plain = [] := rfl

@[simp]
theorem mark_clean : mark clean = ['c', 'l', 'e', 'a', 'n', '-'] := by decide +kernel

@[simp]
theorem mark_invariant :
    mark invariant = ['i', 'n', 'v', 'a', 'r', 'i', 'a', 'n', 't', '-'] := by decide +kernel

end PinKind

/-- What a workspace held at a time. -/
structure Pin where
  workspace : Oplog.NamedWorkspace
  kind : PinKind
  time : UtcTime
  deriving DecidableEq

def recoveryPrefix : String := "refs/manifold/recovery/"

namespace Pin

/-- What follows the workspace in the name of the ref. -/
def suffix (p : Pin) : List Char := p.kind.mark ++ p.time.safe

def refName (p : Pin) : String :=
  String.ofList (recoveryPrefix.toList ++ (p.workspace.asStr.toList ++ '/' :: p.suffix))

theorem suffix_lt_of_rank {p q : Pin} (h : p.kind.rank < q.kind.rank) : p.suffix < q.suffix := by
  have hdigit : ∀ n < 10, FixedWidth.digit n < 'c' ∧ FixedWidth.digit n < 'i' := by decide
  obtain ⟨n, hn, rest, hp⟩ := p.time.exists_safe_eq
  rw [suffix, suffix, hp]
  cases hpk : p.kind with
  | plain =>
    cases hqk : q.kind with
    | plain => simp [hpk, hqk] at h
    | clean => simp [List.cons_lt_cons_iff, (hdigit n hn).1]
    | invariant => simp [List.cons_lt_cons_iff, (hdigit n hn).2]
  | clean =>
    cases hqk : q.kind with
    | invariant => simp [List.cons_lt_cons_iff]
    | plain | clean => simp [hpk, hqk, PinKind.rank] at h
  | invariant => cases hqk : q.kind <;> simp [hpk, hqk, PinKind.rank] at h

theorem suffix_lt_of_time {p q : Pin} (hkind : p.kind = q.kind) :
    p.suffix < q.suffix ↔ p.time < q.time := by
  rw [suffix, suffix, hkind, FixedWidth.append_lt_append_iff rfl, UtcTime.safe_lt_iff]
  simp

/-- The suffixes of pins are ordered by their marks, and those with one mark by time. -/
theorem suffix_lt_iff {p q : Pin} : p.suffix < q.suffix ↔
    p.kind.rank < q.kind.rank ∨ p.kind = q.kind ∧ p.time < q.time := by
  rcases lt_trichotomy p.kind.rank q.kind.rank with hlt | heq | hgt
  · simp [suffix_lt_of_rank hlt, hlt]
  · have hkind : p.kind = q.kind := PinKind.rank_injective heq
    rw [suffix_lt_of_time hkind]
    simp [hkind]
  · have hnot : ¬ p.suffix < q.suffix := lt_asymm (suffix_lt_of_rank hgt)
    have hne : p.kind ≠ q.kind := fun hkind => absurd hgt (by simp [hkind])
    simp [hnot, hne, hgt.le]

theorem suffix_inj {p q : Pin} : p.suffix = q.suffix ↔ p.kind = q.kind ∧ p.time = q.time := by
  refine ⟨fun h => ?_, fun ⟨hkind, htime⟩ => by rw [suffix, suffix, hkind, htime]⟩
  have hpq : ¬ p.suffix < q.suffix := h ▸ lt_irrefl _
  have hqp : ¬ q.suffix < p.suffix := h ▸ lt_irrefl _
  rw [suffix_lt_iff, not_or] at hpq hqp
  have hkind : p.kind = q.kind :=
    PinKind.rank_injective (le_antisymm (not_lt.mp hqp.1) (not_lt.mp hpq.1))
  refine ⟨hkind, le_antisymm ?_ ?_⟩
  · exact not_lt.mp fun hlt => hqp.2 ⟨hkind.symm, hlt⟩
  · exact not_lt.mp fun hlt => hpq.2 ⟨hkind, hlt⟩

end Pin

/-! ### Reading the names -/

/-- Cut a text at the first occurrence of a character. -/
def splitOnce (c : Char) : List Char → Option (List Char × List Char)
  | [] => none
  | d :: cs => if d = c then some ([], cs) else (splitOnce c cs).map fun r => (d :: r.1, r.2)

theorem splitOnce_append {c : Char} {front : List Char} (h : c ∉ front) (rest : List Char) :
    splitOnce c (front ++ c :: rest) = some (front, rest) := by
  induction front with
  | nil => simp [splitOnce]
  | cons d front ih =>
    rw [List.mem_cons, not_or] at h
    rw [List.cons_append, splitOnce, if_neg (Ne.symm h.1), ih h.2]
    rfl

/-- The workspace and the suffix of a recovery ref. -/
def parseRecoveryRefName (refName : String) : Option (String × String) := do
  let rest ← refName.toList.dropPrefix? recoveryPrefix.toList
  let (ws, ts) ← splitOnce '/' rest
  return (String.ofList ws, String.ofList ts)

theorem slash_notMem_asStr (ws : Oplog.NamedWorkspace) : '/' ∉ ws.asStr.toList := by
  intro h
  have hvalid := ws.2
  simp only [WorkspaceId.validate, Bool.and_eq_true] at hvalid
  exact absurd (List.all_eq_true.mp hvalid.1.2 _ h) (by decide)

/-- The ref of a pin is read back. -/
theorem parseRecoveryRefName_refName (p : Pin) :
    parseRecoveryRefName p.refName = some (p.workspace.asStr, String.ofList p.suffix) := by
  have hdrop : p.refName.toList.dropPrefix? recoveryPrefix.toList =
      some (p.workspace.asStr.toList ++ '/' :: p.suffix) := by
    rw [Pin.refName, String.toList_ofList]
    exact List.dropPrefix?_eq_some_iff.mpr ⟨_, rfl, by simp⟩
  rw [parseRecoveryRefName, hdrop]
  simp [splitOnce_append (slash_notMem_asStr p.workspace)]

theorem Pin.refName_injective : Function.Injective Pin.refName := by
  intro p q h
  have hparse := parseRecoveryRefName_refName p
  rw [h, parseRecoveryRefName_refName, Option.some_inj, Prod.mk.injEq] at hparse
  obtain ⟨hkind, htime⟩ := Pin.suffix_inj.mp (String.ofList_injective hparse.2.symm)
  have hws : p.workspace = q.workspace := by
    rw [← Option.some_inj, ← Oplog.NamedWorkspace.new_asStr, ← hparse.1,
      Oplog.NamedWorkspace.new_asStr]
  cases p
  cases q
  simp_all

/-! ### Listing them -/

/-- The recovery refs in some order. -/
structure IsRecoveryListing (refs : RefStore) (listing : List (String × GitOid)) : Prop where
  nodup : (listing.map Prod.fst).Nodup
  mem_iff : ∀ e, e ∈ listing ↔
    refs.lookup e.1 = some e.2 ∧ recoveryPrefix.toList <+: e.1.toList

/-- A pin is listed with the others. -/
theorem IsRecoveryListing.insert {refs : RefStore} {listing : List (String × GitOid)} {p : Pin}
    {oid : GitOid} (h : IsRecoveryListing refs listing)
    (hnew : p.refName ∉ refs) :
    IsRecoveryListing (refs.insert p.refName oid) ((p.refName, oid) :: listing) := by
  refine ⟨List.nodup_cons.mpr ⟨fun hin => ?_, h.nodup⟩, fun e => ?_⟩
  · obtain ⟨e, he, heq⟩ := List.mem_map.mp hin
    have hold := FiniteMap.mem_of_lookup ((h.mem_iff e).mp he).1
    rw [heq] at hold
    exact hnew hold
  · rw [List.mem_cons, h.mem_iff, FiniteMap.lookup_insert]
    by_cases hname : e.1 = p.refName
    · have hbegins : recoveryPrefix.toList <+: p.refName.toList := by
        rw [Pin.refName, String.toList_ofList]
        exact List.prefix_append _ _
      have hold : refs.lookup p.refName = none := Finmap.lookup_eq_none.mpr hnew
      rw [hname, if_pos rfl, hold]
      simp only [hbegins, reduceCtorEq, and_true, or_false, Option.some_inj]
      exact ⟨fun h => by rw [h], fun h => Prod.ext hname h.symm⟩
    · rw [if_neg hname]
      refine ⟨fun hcase => hcase.resolve_left fun heq => hname (by rw [heq]), .inr⟩

def sampleTime (second : ℕ) (h : second < 10 ^ 2 := by decide) : UtcTime :=
  ⟨2026, 2, 19, 12, 0, second, 0, by decide, by decide, by decide, by decide, by decide, h,
    by decide⟩

theorem validate_alice : (⟨"alice"⟩ : WorkspaceId).validate = true := by decide +kernel

def samplePin (kind : PinKind) (second : ℕ) (h : second < 10 ^ 2 := by decide) : Pin :=
  ⟨⟨⟨"alice"⟩, validate_alice⟩, kind, sampleTime second h⟩

/-! ### Layouts -/

/-- Where the workspaces of a repository are. -/
inductive LayoutFlavor
  | v2WsRoot
  | consolidatedMawDir
  deriving DecidableEq, Repr

/-- What is at the root of a repository. -/
structure RepoRoot where
  flavor : LayoutFlavor
  /-- The names of the directories in the directory of the workspaces. -/
  dirs : List String

/-- The workspace of the merge target. -/
def defaultWs : String := "default"

/-- A workspace exists when it has a directory; in the consolidated layout the default workspace is
the root itself. -/
def RepoRoot.Exists (root : RepoRoot) (ws : String) : Prop :=
  ws ∈ root.dirs ∨ root.flavor = .consolidatedMawDir ∧ ws = defaultWs

instance (root : RepoRoot) (ws : String) : Decidable (root.Exists ws) :=
  inferInstanceAs (Decidable (_ ∨ _))

end Maw
