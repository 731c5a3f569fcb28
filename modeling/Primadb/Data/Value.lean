import Primadb.Data.Clock

/-!
# Stored values

JSON values, binary values and the node, field and set states of the graph. A
JSON number keeps the three representations of the JSON library, with a float
given by its bit pattern. An object is the list of its entries in key order.
-/

namespace Primadb

open Std

/-- A JSON number: non-negative, negative, or a float given by its bits. -/
inductive JsonNumber where
  | posInt (n : UInt64)
  | negInt (n : Int64)
  | float (bits : UInt64)
  deriving DecidableEq, Repr

/-- The bits of the double nearest to a natural number, ties to even. -/
def natToF64Bits (n : ℕ) : ℕ :=
  if n = 0 then 0
  else
    let e := Nat.log2 n
    let mantissa :=
      if e ≤ 52 then n * 2 ^ (52 - e)
      else
        let unit := 2 ^ (e - 52)
        let rest := n % unit
        if unit < 2 * rest ∨ (unit = 2 * rest ∧ n / unit % 2 = 1) then n / unit + 1 else n / unit
    (1023 + e) * 2 ^ 52 + mantissa - 2 ^ 52

/-- The bits of `Number::as_f64`. -/
def JsonNumber.toF64Bits : JsonNumber → ℕ
  | .posInt n => natToF64Bits n.toNat
  | .negInt n => 2 ^ 63 + natToF64Bits n.toInt.natAbs
  | .float bits => bits.toNat

/-- A JSON value; the entries of an object stand in key order. -/
inductive JsonValue where
  | null
  | bool (b : Bool)
  | number (n : JsonNumber)
  | string (s : String)
  | array (items : List JsonValue)
  | object (entries : List (String × JsonValue))
  deriving Repr

namespace JsonValue

mutual

/-- Equality of JSON values is decided along their constructors. -/
def decEq : (a b : JsonValue) → Decidable (a = b)
  | .null, .null => isTrue rfl
  | .bool a, .bool b => decidable_of_iff (a = b) (by simp)
  | .number a, .number b => decidable_of_iff (a = b) (by simp)
  | .string a, .string b => decidable_of_iff (a = b) (by simp)
  | .array a, .array b =>
    match decEqItems a b with
    | isTrue h => isTrue (by rw [h])
    | isFalse h => isFalse (by simpa using h)
  | .object a, .object b =>
    match decEqEntries a b with
    | isTrue h => isTrue (by rw [h])
    | isFalse h => isFalse (by simpa using h)
  | .null, .bool _ | .null, .number _ | .null, .string _ | .null, .array _ | .null, .object _
  | .bool _, .null | .bool _, .number _ | .bool _, .string _ | .bool _, .array _
  | .bool _, .object _ | .number _, .null | .number _, .bool _ | .number _, .string _
  | .number _, .array _ | .number _, .object _ | .string _, .null | .string _, .bool _
  | .string _, .number _ | .string _, .array _ | .string _, .object _ | .array _, .null
  | .array _, .bool _ | .array _, .number _ | .array _, .string _ | .array _, .object _
  | .object _, .null | .object _, .bool _ | .object _, .number _ | .object _, .string _
  | .object _, .array _ => isFalse (by simp)

/-- Equality of item lists. -/
def decEqItems : (a b : List JsonValue) → Decidable (a = b)
  | [], [] => isTrue rfl
  | [], _ :: _ | _ :: _, [] => isFalse (by simp)
  | a :: as, b :: bs =>
    match decEq a b, decEqItems as bs with
    | isTrue ha, isTrue hs => isTrue (by rw [ha, hs])
    | isFalse h, _ => isFalse (by simp [h])
    | _, isFalse h => isFalse (by simp [h])

/-- Equality of entry lists. -/
def decEqEntries : (a b : List (String × JsonValue)) → Decidable (a = b)
  | [], [] => isTrue rfl
  | [], _ :: _ | _ :: _, [] => isFalse (by simp)
  | (k, a) :: as, (l, b) :: bs =>
    match decEq a b, decEqEntries as bs with
    | isTrue ha, isTrue hs =>
      decidable_of_iff (k = l) (by simp [ha, hs])
    | isFalse h, _ => isFalse (by simp [h])
    | _, isFalse h => isFalse (by simp [h])

end

instance : DecidableEq JsonValue := decEq

/-- `Value::is_object`. -/
def isObject : JsonValue → Bool
  | .object _ => true
  | _ => false

end JsonValue

/-- Insert into an object's entries, keeping key order and replacing an equal key. -/
def insertEntry (key : String) (value : JsonValue) :
    List (String × JsonValue) → List (String × JsonValue)
  | [] => [(key, value)]
  | (k, v) :: rest =>
    if key < k then (key, value) :: (k, v) :: rest
    else if key = k then (key, value) :: rest
    else (k, v) :: insertEntry key value rest

/-- The value stored under `key` in an object's entries. -/
def getEntry (key : String) (entries : List (String × JsonValue)) : Option JsonValue :=
  entries.lookup key

/-- A binary value. -/
structure BinaryBytes where
  /-- The stored bytes. -/
  bytes : List UInt8
  deriving DecidableEq, Repr

/-- The URL-safe Base64 alphabet. -/
def base64Alphabet : List Char :=
  "ABCDEFGHIJKLMNOPQRSTUVWXYZabcdefghijklmnopqrstuvwxyz0123456789-_".toList

/-- The character of one six-bit digit. -/
def base64Digit (n : ℕ) : Char := base64Alphabet.getD (n % 64) 'A'

/-- Unpadded URL-safe Base64 digits of a byte list, three bytes at a time. -/
def base64Encode : List UInt8 → List Char
  | [] => []
  | [a] => [base64Digit (a.toNat / 4), base64Digit (a.toNat % 4 * 16)]
  | [a, b] =>
    [base64Digit (a.toNat / 4), base64Digit (a.toNat % 4 * 16 + b.toNat / 16),
      base64Digit (b.toNat % 16 * 4)]
  | a :: b :: c :: rest =>
    base64Digit (a.toNat / 4) :: base64Digit (a.toNat % 4 * 16 + b.toNat / 16) ::
      base64Digit (b.toNat % 16 * 4 + c.toNat / 64) :: base64Digit (c.toNat % 64) ::
      base64Encode rest

/-- The bytes of a digit list; a lone trailing digit carries no byte. -/
def base64Bytes : List ℕ → List UInt8
  | a :: b :: c :: d :: rest =>
    UInt8.ofNat (a * 4 + b / 16) :: UInt8.ofNat (b % 16 * 16 + c / 4) ::
      UInt8.ofNat (c % 4 * 64 + d) :: base64Bytes rest
  | [a, b, c] => [UInt8.ofNat (a * 4 + b / 16), UInt8.ofNat (b % 16 * 16 + c / 4)]
  | [a, b] => [UInt8.ofNat (a * 4 + b / 16)]
  | _ => []

/-- `BinaryBytes::to_base64`. -/
def BinaryBytes.toBase64 (value : BinaryBytes) : String := String.ofList (base64Encode value.bytes)

/-- `BinaryBytes::from_base64`: only the canonical encoding of some bytes is accepted. -/
def BinaryBytes.fromBase64 (text : String) : Option BinaryBytes :=
  let value : BinaryBytes := ⟨base64Bytes (text.toList.map fun ch => base64Alphabet.idxOf ch)⟩
  if value.toBase64 = text then some value else none

/-- A reference to a stored blob. -/
structure BlobRef where
  /-- Content address. -/
  id : String
  /-- Length of the blob, a 64-bit `usize`. -/
  bytes : UInt64
  /-- Media type, when one was given. -/
  mediaType : Option String
  deriving DecidableEq, Repr

/-- Node identifiers are strings. -/
abbrev NodeId := String

/-- The state of a set-valued field. -/
structure SetState where
  /-- Marker at or below which member operations are ignored. -/
  baseline : VersionMarker
  /-- Present members with the marker that added them. -/
  members : BTreeMap NodeId VersionMarker
  /-- Removed members with the marker that removed them. -/
  removed : BTreeMap NodeId VersionMarker
  deriving DecidableEq

/-- The value of a field. -/
inductive FieldValue where
  | scalar (value : JsonValue)
  | bytes (value : BinaryBytes)
  | blob (reference : BlobRef)
  | link (target : NodeId)
  | set (state : SetState)
  deriving DecidableEq

/-- A field's value with the marker of its last accepted change. -/
structure FieldState where
  /-- The stored value. -/
  value : FieldValue
  /-- The marker of the last accepted change. -/
  version : VersionMarker
  deriving DecidableEq

/-- A graph node: its fields and the markers of its deleted fields. -/
structure NodeState where
  /-- The node's own id. -/
  id : NodeId
  /-- Present fields. -/
  fields : BTreeMap String FieldState
  /-- Deletion markers. -/
  tombstones : BTreeMap String VersionMarker
  deriving DecidableEq

/-- A node without fields and tombstones. -/
def NodeState.new (id : NodeId) : NodeState := ⟨id, ∅, ∅⟩

end Primadb
