import Maw.Core.Types
import Maw.Library.Decimal
import Maw.Library.KeyedSort
import Maw.Library.Lines

/-!
# LFS pointers

A pointer stands in for a large file: a version line, and lines with a key and a value, among them
the hash and the size of the file. Strings are given by their bytes.

## Main definitions

* `Pointer` — a pointer, with the keys that are not known kept as they are.
* `Pointer.parse`, `Pointer.write` — a pointer as the bytes of a blob.
-/

open Lines

namespace Maw.Lfs

def versionUrl : Bytes := "https://git-lfs.github.com/spec/v1".toUTF8.toList

def maxPointerBytes : ℕ := 1024

def versionKey : Bytes := "version".toUTF8.toList

def oidKey : Bytes := "oid".toUTF8.toList

def sizeKey : Bytes := "size".toUTF8.toList

def sha256 : Bytes := "sha256:".toUTF8.toList

/-- A line with a key and a value. -/
def keyLine (pair : Bytes × Bytes) : Bytes := pair.1 ++ 0x20 :: pair.2

/-- The hash of a file. -/
abbrev Oid := { bytes : Bytes // bytes.length = 32 }

structure Pointer where
  oid : Oid
  size : UInt64
  extensions : List (Bytes × Bytes)
  deriving DecidableEq

inductive ParseError
  | empty
  | tooLarge (length : ℕ)
  | badVersion
  | unsupportedVersion (found : Bytes)
  | badOid
  | badSize
  | nonAscii
  | duplicateKey (key : Bytes)
  | crlfLineEndings
  deriving DecidableEq

/-! ### Values -/

def hexDigit (b : UInt8) : Option UInt8 :=
  if 0x30 ≤ b && b ≤ 0x39 then some (b - 0x30)
  else if 0x61 ≤ b && b ≤ 0x66 then some (b - 0x61 + 10)
  else if 0x41 ≤ b && b ≤ 0x46 then some (b - 0x41 + 10)
  else none

def hexChar (n : UInt8) : UInt8 := if n ≤ 9 then 0x30 + n else 0x61 + n - 10

def isAsciiUppercase (b : UInt8) : Bool := 0x41 ≤ b && b ≤ 0x5A

/-- A byte from its digits, which must be in lower case. -/
def hexByte (hi lo : UInt8) : Option UInt8 :=
  match hexDigit hi, hexDigit lo with
  | some h, some l =>
    if isAsciiUppercase hi || isAsciiUppercase lo then none else some (h <<< 4 ||| l)
  | _, _ => none

def hexBytes : Bytes → Option Bytes
  | hi :: lo :: rest =>
    match hexByte hi lo, hexBytes rest with
    | some byte, some bytes => some (byte :: bytes)
    | _, _ => none
  | _ => some []

def oidHex (oid : Oid) : Bytes :=
  oid.val.flatMap fun (byte : UInt8) => [hexChar (byte >>> 4), hexChar (byte &&& 0x0F)]

def stripPrefix (part text : Bytes) : Option Bytes :=
  if part.isPrefixOf text then some (text.drop part.length) else none

def parseOid (value : Bytes) : Option Oid :=
  match stripPrefix sha256 value with
  | none => none
  | some hex =>
    if hex.length ≠ 64 then none
    else
      match hexBytes hex with
      | none => none
      | some bytes => if h : bytes.length = 32 then some ⟨bytes, h⟩ else none

/-- The digits of an unsigned number, which may have a plus sign in front of them. -/
def digitsOf : Bytes → Bytes
  | 0x2B :: rest => rest
  | text => text

/-- An unsigned number of 64 bits from a text. -/
def parseU64 (text : Bytes) : Option UInt64 :=
  let digits := digitsOf text
  if digits.isEmpty || !digits.all Decimal.isDigit then none
  else if Decimal.value digits < 2 ^ 64 then some (UInt64.ofNat (Decimal.value digits))
  else none

/-! ### Reading -/

/-- What the lines have given so far. -/
structure Fields where
  oid : Option Oid
  size : Option UInt64
  extensions : List (Bytes × Bytes)
  seenKeys : List Bytes

/-- One more key with its value. -/
def Fields.addPair (fields : Fields) (key value : Bytes) : Except ParseError Fields :=
  if key = oidKey then
    match parseOid value with
    | some oid => .ok { fields with oid := some oid }
    | none => .error .badOid
  else if key = sizeKey then
    match parseU64 value with
    | some n => .ok { fields with size := some n }
    | none => .error .badSize
  else .ok { fields with extensions := fields.extensions ++ [(key, value)] }

/-- One more line; an empty one is passed over. -/
def Fields.addLine (fields : Fields) (line : Bytes) : Except ParseError Fields :=
  if line.isEmpty then .ok fields
  else
    match splitOnce 0x20 line with
    | none => .error .badVersion
    | some (key, value) =>
      if key ∈ fields.seenKeys then .error (.duplicateKey key)
      else { fields with seenKeys := fields.seenKeys ++ [key] }.addPair key value

def Fields.addLines (fields : Fields) : List Bytes → Except ParseError Fields
  | [] => .ok fields
  | line :: lines =>
    match fields.addLine line with
    | .ok fields' => fields'.addLines lines
    | .error error => .error error

def Fields.toPointer (fields : Fields) : Except ParseError Pointer :=
  match fields.oid, fields.size with
  | some oid, some size => .ok ⟨oid, size, fields.extensions⟩
  | none, _ => .error .badOid
  | some _, none => .error .badSize

/-- Read the lines of a pointer; the last one is what stands behind the last line feed. -/
def parseLines : List Bytes → Except ParseError Pointer
  | [] => .error .badVersion
  | versionLine :: lines =>
    match stripPrefix (versionKey ++ [0x20]) versionLine with
    | none => .error .badVersion
    | some versionValue =>
      if versionValue ≠ versionUrl then .error (.unsupportedVersion versionValue)
      else
        match (Fields.mk none none [] []).addLines lines with
        | .ok fields => fields.toPointer
        | .error error => .error error

def Pointer.parse (bytes : Bytes) : Except ParseError Pointer :=
  if bytes.isEmpty then .error .empty
  else if maxPointerBytes < bytes.length then .error (.tooLarge bytes.length)
  else if !bytes.all fun b => b < 0x80 then .error .nonAscii
  else if 0x0D ∈ bytes then .error .crlfLineEndings
  else if bytes.getLast? ≠ some 0x0A then .error .badVersion
  else parseLines (bytes.splitOn 0x0A)

def versionPrefix : Bytes := versionKey ++ 0x20 :: versionUrl ++ [0x0A]

/-- Whether a blob may be a pointer. -/
def looksLikePointer (bytes : Bytes) : Bool :=
  bytes.length ≤ maxPointerBytes && versionPrefix.isPrefixOf bytes

/-! ### Writing -/

/-- The lines of a pointer behind the version line, before they are sorted. -/
def Pointer.keyed (p : Pointer) : List (Bytes × Bytes) :=
  (oidKey, sha256 ++ oidHex p.oid) :: (sizeKey, Decimal.text p.size.toNat) :: p.extensions

/-- Strings are in the order of their bytes. -/
def byteOrder (key : Bytes) : List ℕ := key.map UInt8.toNat

def versionLine : Bytes := keyLine (versionKey, versionUrl)

def Pointer.write (p : Pointer) : Bytes :=
  unlines 0x0A (versionLine ::
    ((KeyedSort.SortBy.insertion fun pair => byteOrder pair.1).sort p.keyed).map keyLine)

end Maw.Lfs
