import Primadb.Core.Effect
import Primadb.Data.Scope

/-!
# Input values

How a JSON value given to a write is read: as a scalar, as one of the marker
objects for bytes, blobs, links and sets, or as an object to store as a node.
A marker object has exactly one entry.
-/

namespace Primadb

/-- A member of an assigned set. -/
inductive SetMember where
  | link (target : NodeId)
  | object (entries : List (String × JsonValue))

/-- An input value after parsing. -/
inductive ParsedInput where
  | scalar (value : JsonValue)
  | bytes (value : BinaryBytes)
  | blob (reference : BlobRef)
  | link (target : NodeId)
  | object (entries : List (String × JsonValue))
  | set (members : List SetMember)

/-- The value of an object with exactly the given key. -/
def onlyEntry (key : String) : List (String × JsonValue) → Option JsonValue
  | [(k, value)] => if k = key then some value else none
  | _ => none

/-- A link marker `{"$link": id}` or `{"#": id}`. -/
def parseLinkMarker (entries : List (String × JsonValue)) : Option NodeId :=
  match (onlyEntry "$link" entries).or (onlyEntry "#" entries) with
  | some (.string target) => some target
  | _ => none

/-- A byte marker `{"$bytes": text}`. -/
def parseBytesMarker (entries : List (String × JsonValue)) (path : String) :
    Except PrimadbError (Option BinaryBytes) :=
  match onlyEntry "$bytes" entries with
  | none => .ok none
  | some (.string encoded) =>
    match BinaryBytes.fromBase64 encoded with
    | some bytes => .ok (some bytes)
    | none => .error (.invalidBinaryMarker path)
  | some _ => .error (.invalidBinaryMarker path)

/-- An optional media type. -/
def mediaTypeFromValue : JsonValue → Option (Option String)
  | .null => some none
  | .string text => some (some text)
  | _ => none

/-- A blob reference from its three values; the media type may be missing. -/
def blobRefFromParts : Option JsonValue → Option JsonValue → Option JsonValue → Option BlobRef
  | some (.string id), some (.number (.posInt bytes)), mediaType =>
    (mediaTypeFromValue (mediaType.getD .null)).map (⟨id, bytes, ·⟩)
  | _, _, _ => none

/-- A blob reference read from its object or array form. -/
def blobRefFromValue : JsonValue → Option BlobRef
  | .object entries =>
    blobRefFromParts (getEntry "id" entries) (getEntry "bytes" entries)
      (getEntry "mediaType" entries)
  | .array [id, bytes] => blobRefFromParts (some id) (some bytes) none
  | .array [id, bytes, mediaType] => blobRefFromParts (some id) (some bytes) (some mediaType)
  | _ => none

/-- A blob marker `{"$blob": reference}`. -/
def parseBlobMarker (entries : List (String × JsonValue)) (path : String) :
    Except PrimadbError (Option BlobRef) :=
  match onlyEntry "$blob" entries with
  | none => .ok none
  | some value =>
    match blobRefFromValue value with
    | some reference => .ok (some reference)
    | none => .error (.invalidBlobMarker path)

/-- A set marker `{"$set": [..]}`. -/
def parseSetMarker (entries : List (String × JsonValue)) : Option (List JsonValue) :=
  match onlyEntry "$set" entries with
  | some (.array items) => some items
  | _ => none

/-- The members of a set marker; every item has to be an object. -/
def parseSetMembers (path : String) : List JsonValue → Except PrimadbError (List SetMember)
  | [] => .ok []
  | .object entries :: items => do
    let members ← parseSetMembers path items
    match parseLinkMarker entries with
    | some target => .ok (.link target :: members)
    | none => .ok (.object entries :: members)
  | _ :: _ => .error (.invalidSetMember path)

/-- Read an input value. -/
def parseInput (value : JsonValue) (path : String) : Except PrimadbError ParsedInput :=
  match value with
  | .object entries => do
    match ← parseBytesMarker entries path with
    | some bytes => return .bytes bytes
    | none =>
      match ← parseBlobMarker entries path with
      | some reference => return .blob reference
      | none =>
        match parseLinkMarker entries with
        | some target => return .link target
        | none =>
          match parseSetMarker entries with
          | some items => return .set (← parseSetMembers path items)
          | none => return .object entries
  | .array items =>
    if items.any JsonValue.isObject then .error (.arrayOfObjectsUnsupported path)
    else .ok (.scalar (.array items))
  | value => .ok (.scalar value)

/-- The member a removal names. -/
def parseMemberReference (value : JsonValue) (path : String) : Except PrimadbError NodeId :=
  match value with
  | .string member => .ok member
  | .object entries =>
    match parseLinkMarker entries with
    | some link => .ok link
    | none =>
      match getEntry "$id" entries with
      | some (.string id) => .ok id
      | _ => .error (.invalidMemberReference path)
  | _ => .error (.invalidMemberReference path)

/-- The marker object of a byte value. -/
def bytesMarkerValue (bytes : BinaryBytes) : JsonValue :=
  .object [("$bytes", .string bytes.toBase64)]

/-- The object form of a blob reference. -/
def blobRefToValue (reference : BlobRef) : JsonValue :=
  .object [("bytes", .number (.posInt reference.bytes)), ("id", .string reference.id),
    ("mediaType", (reference.mediaType.map JsonValue.string).getD .null)]

/-- The marker object of a blob reference. -/
def blobMarkerValue (reference : BlobRef) : JsonValue :=
  .object [("$blob", blobRefToValue reference)]

end Primadb
