import Primadb.Data.Scope

/-!
# Keyed records

A record lives in a node of its own under a reserved id, with one field for the
key and one for the value.
-/

namespace Primadb

/-- The value of a record. -/
inductive RecordValue where
  | json (value : JsonValue)
  | bytes (value : BinaryBytes)
  | blob (reference : BlobRef)
  deriving DecidableEq

/-- A record. -/
structure RecordEntry where
  key : String
  value : RecordValue
  deriving DecidableEq

/-- The digest function of the `blake3` crate, in hexadecimal form. -/
class Blake3 where
  /-- The digest of a text. -/
  hash : String → String

/-- A digest for closed runs. -/
abbrev plainHash : Blake3 := ⟨fun data => data⟩

/-- The node of a record. -/
def recordNodeId [Blake3] (key : String) : NodeId := "__primadb_records/" ++ Blake3.hash key

/-- Whether an id is reserved for records. -/
def isRecordNodeId (nodeId : String) : Bool := startsWith nodeId "__primadb_records/"

/-- The key stored in a record node. -/
def recordKeyFromNodeState (state : NodeState) : Option String :=
  match state.fields["key"]? with
  | some ⟨.scalar (.string key), _⟩ => some key
  | _ => none

/-- The record stored in a record node. -/
def recordEntryFromNodeState (state : NodeState) : Option RecordEntry :=
  match recordKeyFromNodeState state with
  | none => none
  | some key =>
    match state.fields["value"]? with
    | some ⟨.scalar value, _⟩ => some ⟨key, .json value⟩
    | some ⟨.bytes value, _⟩ => some ⟨key, .bytes value⟩
    | some ⟨.blob reference, _⟩ => some ⟨key, .blob reference⟩
    | some ⟨.link _, _⟩ | some ⟨.set _, _⟩ | none => none

/-- A range of records. -/
structure RecordScan where
  /-- Start of every key. -/
  keyPrefix : Option String
  /-- Least key. -/
  startAt : Option String
  /-- Strict lower bound. -/
  startAfter : Option String
  /-- Greatest key. -/
  endAt : Option String
  /-- Strict upper bound. -/
  endBefore : Option String
  /-- Whether the order is descending. -/
  reverse : Bool
  /-- Greatest number of records. -/
  limit : Option ℕ
  /-- The last key of the page before. -/
  cursor : Option String
  deriving DecidableEq

/-- `RecordScan::matches_key`. -/
def RecordScan.matchesKey (scan : RecordScan) (key : String) : Bool :=
  scan.keyPrefix.all (fun start => startsWith key start) &&
  scan.cursor.all (fun cursor => if scan.reverse then decide (key < cursor)
    else decide (cursor < key)) &&
  scan.startAt.all (fun start => decide (start ≤ key)) &&
  scan.startAfter.all (fun start => decide (start < key)) &&
  scan.endAt.all (fun stop => decide (key ≤ stop)) &&
  scan.endBefore.all (fun stop => decide (key < stop))

/-- A change of records. -/
inductive RecordMutation where
  | put (key : String) (value : RecordValue)
  | delete (key : String)
  | deleteRange (scan : RecordScan)
  deriving DecidableEq

/-- What has to hold before a batch is applied. -/
inductive RecordPrecondition where
  | exists (key : String)
  | absent (key : String)
  | value (key : String) (value : RecordValue)
  deriving DecidableEq

/-- Record changes that are applied together. -/
structure RecordBatch where
  /-- Conditions checked first. -/
  preconditions : List RecordPrecondition
  /-- The changes in order. -/
  mutations : List RecordMutation
  deriving DecidableEq

end Primadb
