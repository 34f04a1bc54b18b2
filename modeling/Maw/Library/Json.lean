import Mathlib.Data.String.Basic
import Maw.Library.FiniteMap
import Maw.Library.KeyedSort

/-!
# JSON values and codecs

JSON values, and types that are written as JSON and read back. A codec carries its round trip;
the records of a format are built from the codecs of their fields.

## Main definitions

* `JsonValue`, `JsonObject` — JSON values.
* `JsonCodec` — a type with its JSON form.
* `JsonObject.field`, `JsonObject.optionField` — a field of a record.

## Main results

* `JsonObject.field_of_lookup`, `JsonObject.optionField_of_lookup` — a field that was written is
  read back.
* The codec of finite maps with strings as keys.
-/

/-- A JSON number: an integer, or a float by its bits. -/
inductive JsonNumber
  | natural (n : ℕ)
  | negative (n : ℕ)
  | float (bits : BitVec 64)
  deriving DecidableEq, Repr

/-- A JSON value; an object lists its fields in the order of their names. -/
inductive JsonValue
  | null
  | bool (b : Bool)
  | number (n : JsonNumber)
  | string (s : String)
  | array (items : List JsonValue)
  | object (fields : List (String × JsonValue))

/-- The fields of a JSON object. -/
structure JsonObject where
  fields : List (String × JsonValue)

/-- A type with a JSON form, which is not the null value, from which it is read back. -/
class JsonCodec (α : Type*) where
  toJson : α → JsonValue
  ofJson : JsonValue → Option α
  ofJson_toJson : ∀ a, ofJson (toJson a) = some a
  toJson_ne_null : ∀ a, toJson a ≠ .null

namespace JsonCodec

attribute [simp] ofJson_toJson

variable {α : Type*} [JsonCodec α]

/-- A value that may be missing is written as null. -/
def optionToJson : Option α → JsonValue
  | none => .null
  | some a => toJson a

/-- Read a value that may be missing. -/
def optionOfJson : JsonValue → Option (Option α)
  | .null => some none
  | value => (ofJson value).map some

@[simp]
theorem optionOfJson_optionToJson (a : Option α) : optionOfJson (optionToJson a) = some a := by
  rcases a with _ | a
  · rfl
  · have hne := toJson_ne_null a
    have hread := ofJson_toJson a
    rw [optionToJson]
    revert hne hread
    rcases toJson a with _ | _ | _ | _ | _ | _
    · exact fun hne _ => absurd rfl hne
    all_goals
      intro _ hread
      rw [optionOfJson, hread, Option.map_some]
      exact fun h => JsonValue.noConfusion h

instance : JsonCodec Bool where
  toJson := .bool
  ofJson
    | .bool b => some b
    | _ => none
  ofJson_toJson _ := rfl
  toJson_ne_null _ := JsonValue.noConfusion

instance : JsonCodec ℕ where
  toJson n := .number (.natural n)
  ofJson
    | .number (.natural n) => some n
    | _ => none
  ofJson_toJson _ := rfl
  toJson_ne_null _ := JsonValue.noConfusion

instance : JsonCodec String where
  toJson := .string
  ofJson
    | .string s => some s
    | _ => none
  ofJson_toJson _ := rfl
  toJson_ne_null _ := JsonValue.noConfusion

instance : JsonCodec JsonObject where
  toJson o := .object o.fields
  ofJson
    | .object fields => some ⟨fields⟩
    | _ => none
  ofJson_toJson _ := rfl
  toJson_ne_null _ := JsonValue.noConfusion

/-- A type that is written as a string. -/
@[reducible]
def ofString {β : Type*} (write : β → String) (read : String → Option β)
    (h : ∀ b, read (write b) = some b) : JsonCodec β where
  toJson b := .string (write b)
  ofJson
    | .string s => read s
    | _ => none
  ofJson_toJson := h
  toJson_ne_null _ := JsonValue.noConfusion

/-- A record that is written as its fields. -/
@[reducible]
def ofRecord {β : Type*} (write : β → JsonObject) (read : JsonObject → Option β)
    (h : ∀ b, read (write b) = some b) : JsonCodec β where
  toJson b := .object (write b).fields
  ofJson
    | .object fields => read ⟨fields⟩
    | _ => none
  ofJson_toJson := h
  toJson_ne_null _ := JsonValue.noConfusion

end JsonCodec

namespace JsonObject

open JsonCodec

variable {α : Type*} [JsonCodec α]

/-- A field of a record. -/
def field (o : JsonObject) (name : String) : Option α := (o.fields.lookup name).bind ofJson

/-- A field of a record that may be missing or null. -/
def optionField (o : JsonObject) (name : String) : Option (Option α) :=
  match o.fields.lookup name with
  | none => some none
  | some value => optionOfJson value

theorem field_of_lookup {o : JsonObject} {name : String} {a : α}
    (h : o.fields.lookup name = some (toJson a)) : o.field name = some a := by
  rw [field, h, Option.bind_some, ofJson_toJson]

end JsonObject

namespace JsonCodec

/-! ### Finite maps -/

section Map

variable {α : Type*} [JsonCodec α]

/-- The fields of a map at some of its keys. -/
def mapFields (m : FiniteMap String α) (keys : List String) : List (String × JsonValue) :=
  keys.filterMap fun key => (m.lookup key).map fun a => (key, toJson a)

/-- Read the entries of a map. -/
def ofFields : List (String × JsonValue) → Option (FiniteMap String α)
  | [] => some ∅
  | (key, value) :: fields => do
    let a ← ofJson value
    let m ← ofFields fields
    return m.insert key a

/-- The entries of a map that were written are read back. -/
theorem ofFields_mapFields (m : FiniteMap String α) (keys : List String) :
    ∃ m' : FiniteMap String α, ofFields (mapFields m keys) = some m' ∧
      ∀ key, m'.lookup key = if key ∈ keys then m.lookup key else none := by
  induction keys with
  | nil => exact ⟨∅, rfl, fun key => by simp⟩
  | cons key keys ih =>
    obtain ⟨m', hm', hlookup⟩ := ih
    rcases h : m.lookup key with _ | a
    · refine ⟨m', ?_, fun other => ?_⟩
      · rw [← hm', mapFields, List.filterMap_cons_none (by rw [h]; rfl), mapFields]
      · rw [hlookup]
        by_cases he : other = key
        · subst he
          simp [h]
        · simp [he]
    · refine ⟨m'.insert key a, ?_, fun other => ?_⟩
      · rw [mapFields, List.filterMap_cons_some (by rw [h]; rfl), ofFields, ofJson_toJson,
          ← mapFields, hm']
        rfl
      · rw [FiniteMap.lookup_insert, hlookup]
        by_cases he : other = key
        · subst he
          simp [h]
        · simp [he]

instance : JsonCodec (FiniteMap String α) where
  toJson m := .object (mapFields m (KeyedSort.inOrderOf id Function.injective_id m.keys))
  ofJson
    | .object fields => ofFields fields
    | _ => none
  ofJson_toJson m := by
    obtain ⟨m', hm', hlookup⟩ :=
      ofFields_mapFields m (KeyedSort.inOrderOf id Function.injective_id m.keys)
    have heq : m' = m := by
      refine Finmap.ext_lookup fun key => ?_
      rw [hlookup]
      split_ifs with hkey
      · rfl
      · rw [KeyedSort.mem_inOrderOf, Finmap.mem_keys] at hkey
        exact (Finmap.lookup_eq_none.mpr hkey).symm
    rw [← heq]
    exact heq ▸ hm'
  toJson_ne_null _ := JsonValue.noConfusion

end Map

end JsonCodec
