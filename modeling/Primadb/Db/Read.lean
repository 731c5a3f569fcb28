import Primadb.Db.Write

/-!
# Reads

A read resolves its path and materializes what it finds as JSON. Links and set
members are followed; a node already on the path, or absent, is shown as a
reference. Reading may load nodes from the store. The fuel bounds the nesting of
nodes, which never exceeds the number of nodes the read can meet.
-/

namespace Primadb

open Effect

/-- The reference shown for a node that is not expanded. -/
def refValue (node : NodeId) : JsonValue := .object [("$ref", .string node)]

section Materialize

variable {σ : Type}

/-- Materialize a list of nodes one after another. -/
def materializeAll (node : NodeId → Inner σ → JsonValue × Inner σ) :
    List NodeId → Inner σ → List JsonValue × Inner σ
  | [], inner => ([], inner)
  | id :: ids, inner =>
    let head := node id inner
    let tail := materializeAll node ids head.2
    (head.1 :: tail.1, tail.2)

/-- Materialize a field value, given how nodes are materialized. -/
def materializeField (node : NodeId → Inner σ → JsonValue × Inner σ) (value : FieldValue)
    (inner : Inner σ) : JsonValue × Inner σ :=
  match value with
  | .scalar value => (value, inner)
  | .bytes bytes => (bytesMarkerValue bytes, inner)
  | .blob reference => (blobMarkerValue reference, inner)
  | .link target => node target inner
  | .set set =>
    let members := materializeAll node set.members.keys inner
    (.object [("$set", .array members.1)], members.2)

/-- Materialize the fields of a node one after another. -/
def materializeFields (node : NodeId → Inner σ → JsonValue × Inner σ) :
    List (String × FieldState) → Inner σ → List (String × JsonValue) × Inner σ
  | [], inner => ([], inner)
  | (field, state) :: rest, inner =>
    let head := materializeField node state.value inner
    let tail := materializeFields node rest head.2
    ((field, head.1) :: tail.1, tail.2)

variable [IncrementalStore σ]

/-- Materialize a node that is not on the path `visited`. -/
def materializeNode : ℕ → BTreeSet NodeId → NodeId → Inner σ → JsonValue × Inner σ
  | 0, _, _, inner => (.null, inner)
  | fuel + 1, visited, node, inner =>
    if visited.contains node then (refValue node, inner)
    else
      let inner := (maybeLoadNode node inner).2
      match inner.nodes[node]? with
      | some state =>
        let fields := materializeFields (materializeNode fuel (visited.insert node))
          state.fields.toList inner
        (.object (fields.1.foldl (fun object entry => insertEntry entry.1 entry.2 object)
          [("$id", .string state.id)]), fields.2)
      | none => (refValue node, inner)

end Materialize

variable {σ : Type} [IncrementalStore σ]

/-- Follow the segments of a path without creating anything. -/
def resolvePath : NodeId → List String → Call σ (Option NodeId)
  | current, [] => pure (some current)
  | current, segment :: rest => do
    let found ← maybeLoadNode current
    if !found then pure none
    else
      let inner ← get
      match inner.fieldValue current segment with
      | none => pure none
      | some (.link target) => resolvePath target rest
      | some (.scalar _) | some (.bytes _) | some (.blob _) =>
        fail (.traversalIntoScalar current segment)
      | some (.set _) => fail (.traversalIntoSet current segment)

/-- The place a path names, when it exists. -/
def resolveCursor (anchor : NodeId) (segments : List String) : Call σ (Option Cursor) := do
  let found ← maybeLoadNode anchor
  if !found then pure none
  else if segments.isEmpty then pure (some (.node anchor))
  else
    match ← resolvePath anchor segments.dropLast with
    | none => pure none
    | some current =>
      let found ← maybeLoadNode current
      if !found then pure none
      else pure (some (.field current (segments.getLast?.getD "")))

/-- `once_json`: the value at a path. -/
def onceJson (fuel : ℕ) (anchor : NodeId) (segments : List String) :
    Call σ (Option JsonValue) := do
  match ← resolveCursor anchor segments with
  | none => pure none
  | some (.node node) =>
    let value ← lift (materializeNode fuel ∅ node)
    pure (some value)
  | some (.field node field) =>
    let inner ← get
    match inner.fieldValue node field with
    | none => pure none
    | some value =>
      let value ← lift (materializeField (materializeNode fuel ∅) value)
      pure (some value)

/-- The entries of a node, each materialized on its own. -/
def mapNode (fuel : ℕ) (node : NodeId) (inner : Inner σ) : List (String × JsonValue) × Inner σ :=
  let inner := (maybeLoadNode node inner).2
  match inner.nodes[node]? with
  | some state => materializeFields (materializeNode fuel ∅) state.fields.toList inner
  | none => ([], inner)

/-- `map`: the entries of the node or set at a path. -/
def mapAt (fuel : ℕ) (anchor : NodeId) (segments : List String) :
    Call σ (List (String × JsonValue)) := do
  match ← resolveCursor anchor segments with
  | none => pure []
  | some (.node node) => lift (mapNode fuel node)
  | some (.field node field) =>
    let inner ← get
    match inner.fieldValue node field with
    | some (.link target) => lift (mapNode fuel target)
    | some (.set set) => do
      let values ← lift (materializeAll (materializeNode fuel ∅) set.members.keys)
      pure (set.members.keys.zip values)
    | some (.scalar _) | some (.bytes _) | some (.blob _) | none => pure []

end Primadb
