import Primadb.Data.Operation

/-!
# Applying one operation to the node map

The four arms of `apply_operation_internal` on the state of one node. Adding
and removing a set member share one definition: they differ in the half of the
set state they write and in the baseline given to a set that replaces another
kind of value. Every arm first creates the node, also when it is then refused.
-/

namespace Primadb

/-- An existing marker refuses every marker at or below it. -/
def blocks (current : Option VersionMarker) (marker : VersionMarker) : Bool :=
  match current with
  | some current => decide (marker ≤ current)
  | none => false

/-- The field value stored for an assignment with the given marker. -/
def OperationValue.toFieldValue (value : OperationValue) (marker : VersionMarker) : FieldValue :=
  match value with
  | .scalar value => .scalar value
  | .bytes value => .bytes value
  | .blob reference => .blob reference
  | .link target => .link target
  | .set members =>
    .set
      { baseline := marker
        members := members.foldl (fun map member => map.insert member marker) ∅
        removed := ∅ }

/-- Write a member into the half of the set state chosen by `present`. -/
def SetState.record (set : SetState) (present : Bool) (member : NodeId)
    (marker : VersionMarker) : SetState :=
  if present then
    { set with
      members := set.members.insert member marker
      removed := set.removed.erase member }
  else
    { set with
      members := set.members.erase member
      removed := set.removed.insert member marker }

namespace NodeState

/-- The `SetField` arm. -/
def applySetField (state : NodeState) (field : String) (value : OperationValue)
    (marker : VersionMarker) : NodeState × Bool :=
  let tombstoneBlocks := blocks state.tombstones[field]? marker
  let fieldBlocks := blocks (state.fields[field]?.map FieldState.version) marker
  if tombstoneBlocks || fieldBlocks then (state, false)
  else
    ({ state with
        tombstones := state.tombstones.erase field
        fields := state.fields.insert field ⟨value.toFieldValue marker, marker⟩ }, true)

/-- The common arm of the two member operations; `conversionBaseline` is the baseline
of a set that replaces another kind of value. -/
def applyMember (present : Bool) (conversionBaseline : VersionMarker) (state : NodeState)
    (field : String) (member : NodeId) (marker : VersionMarker) : NodeState × Bool :=
  if blocks state.tombstones[field]? marker then (state, false)
  else
    match state.fields[field]? with
    | some current =>
      match current.value with
      | .set set =>
        if marker ≤ set.baseline then (state, false)
        else if blocks set.members[member]? marker || blocks set.removed[member]? marker then
          (state, false)
        else
          let version := if marker > current.version then marker else current.version
          ({ state with
              fields := state.fields.insert field
                ⟨.set (set.record present member marker), version⟩ }, true)
      | _ =>
        if marker ≤ current.version then (state, false)
        else
          let set := SetState.record ⟨conversionBaseline, ∅, ∅⟩ present member marker
          ({ state with fields := state.fields.insert field ⟨.set set, marker⟩ }, true)
    | none =>
      let set := SetState.record ⟨zeroMarker, ∅, ∅⟩ present member marker
      ({ state with fields := state.fields.insert field ⟨.set set, marker⟩ }, true)

/-- The `AddSetMember` arm: a converted field takes the marker itself as baseline. -/
def applyAddSetMember (state : NodeState) (field : String) (member : NodeId)
    (marker : VersionMarker) : NodeState × Bool :=
  applyMember true marker state field member marker

/-- The `RemoveSetMember` arm: a converted field takes the zero marker as baseline. -/
def applyRemoveSetMember (state : NodeState) (field : String) (member : NodeId)
    (marker : VersionMarker) : NodeState × Bool :=
  applyMember false zeroMarker state field member marker

/-- The `DeleteField` arm. -/
def applyDeleteField (state : NodeState) (field : String) (marker : VersionMarker) :
    NodeState × Bool :=
  let fieldBlocks := blocks (state.fields[field]?.map FieldState.version) marker
  let tombstoneBlocks := blocks state.tombstones[field]? marker
  if fieldBlocks || tombstoneBlocks then (state, false)
  else
    ({ state with
        fields := state.fields.erase field
        tombstones := state.tombstones.insert field marker }, true)

/-- The state of the node after an action, and whether the action was accepted. -/
def applyAction (state : NodeState) (action : OperationAction) (marker : VersionMarker) :
    NodeState × Bool :=
  match action with
  | .setField _ field value => state.applySetField field value marker
  | .addSetMember _ field member => state.applyAddSetMember field member marker
  | .removeSetMember _ field member => state.applyRemoveSetMember field member marker
  | .deleteField _ field => state.applyDeleteField field marker

end NodeState

/-- `nodes.entry(node).or_insert_with(NodeState::new)`. -/
def nodeEntry (nodes : BTreeMap NodeId NodeState) (node : NodeId) : NodeState :=
  nodes[node]?.getD (NodeState.new node)

/-- Apply an operation to the node map. -/
def applyToNodes (nodes : BTreeMap NodeId NodeState) (op : Operation) :
    BTreeMap NodeId NodeState × Bool :=
  let result := (nodeEntry nodes op.action.node).applyAction op.action op.marker
  (nodes.insert op.action.node result.1, result.2)

end Primadb
