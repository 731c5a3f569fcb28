import Primadb.Data.Input
import Primadb.Db.Inner

/-!
# Local writes

The write calls of the database down to the operations they issue. A call that
fails keeps what it has already written, and the acceptance of an issued
operation is not looked at, as in the source.
-/

namespace Primadb

open Effect

/-- A place in the graph. -/
inductive Cursor where
  | node (id : NodeId)
  | field (node : NodeId) (field : String)
  deriving DecidableEq

/-- The namespace of the operation ids of an action. -/
def OperationAction.nspace : OperationAction → String
  | .setField _ _ _ => "set"
  | .addSetMember _ _ _ => "set-add"
  | .removeSetMember _ _ _ => "set-remove"
  | .deleteField _ _ => "delete"

/-- `node_state_is_empty`. -/
def NodeState.isEmpty (state : NodeState) : Bool :=
  state.fields.isEmpty && state.tombstones.isEmpty

/-- A database call: the state reached is kept also on an error. -/
abbrev Call (σ α : Type) := Effect (Inner σ) PrimadbError α

namespace Inner

variable {σ : Type}

/-- Create a node in memory unless it is there; the store is not consulted. -/
def ensureNode (inner : Inner σ) (node : NodeId) : Inner σ :=
  { inner with
    missingNodes := inner.missingNodes.erase node
    nodes := inner.nodes.insert node (nodeEntry inner.nodes node) }

/-- Issue the next local operation. -/
def issue (inner : Inner σ) (nspace : String) (action : OperationAction) :
    Operation × Inner σ :=
  let now := inner.wall.nowMillis
  let revision := inner.clock.nextRevision now.1
  let opId := revision.2.nextOpId nspace
  (⟨opId.1, opId.2.actor, revision.1, action⟩, { inner with wall := now.2, clock := opId.2 })

/-- Issue an operation and apply it with local origin. -/
def applyLocal (inner : Inner σ) (nspace : String) (action : OperationAction) : Inner σ :=
  let issued := inner.issue nspace action
  (issued.2.applyOperationInternal issued.1 .local).2

/-- Assign a field. -/
def setField (inner : Inner σ) (node : NodeId) (field : String) (value : OperationValue) :
    Inner σ :=
  inner.applyLocal "set" (.setField node field value)

/-- Delete a field. -/
def deleteField (inner : Inner σ) (node : NodeId) (field : String) : Inner σ :=
  inner.applyLocal "delete" (.deleteField node field)

/-- Add a member to a set. -/
def addSetMember (inner : Inner σ) (node : NodeId) (field : String) (member : NodeId) : Inner σ :=
  inner.applyLocal "set-add" (.addSetMember node field member)

/-- Remove a member from a set. -/
def removeMemberFromSet (inner : Inner σ) (node : NodeId) (field : String) (member : NodeId) :
    Inner σ :=
  inner.applyLocal "set-remove" (.removeSetMember node field member)

/-- Issue a node id. -/
def nextNodeId (inner : Inner σ) (hint : String) : NodeId × Inner σ :=
  let issued := inner.clock.nextNodeId hint
  (issued.1, { inner with clock := issued.2 })

/-- The value of a field in memory. -/
def fieldValue (inner : Inner σ) (node : NodeId) (field : String) : Option FieldValue :=
  (inner.nodes[node]?.bind fun state => state.fields[field]?).map FieldState.value

/-- The target of a link field in memory. -/
def linkTarget (inner : Inner σ) (node : NodeId) (field : String) : Option NodeId :=
  match inner.fieldValue node field with
  | some (.link target) => some target
  | _ => none

/-- Whether a node in memory needs no look at the store. -/
def resident (inner : Inner σ) (node : NodeId) : Bool :=
  match inner.nodes[node]? with
  | some existing => !existing.isEmpty || inner.storageEngine.isNone
  | none => false

end Inner

variable {σ : Type} [IncrementalStore σ]

/-- Load a node from the store unless it is in memory; the answer says whether it exists. -/
def maybeLoadNode (node : NodeId) : Call σ Bool := fun inner =>
  if inner.resident node then (.ok true, inner)
  else if inner.missingNodes.contains node then (.ok false, inner)
  else
    match inner.storageEngine with
    | none => (.ok false, inner)
    | some engine =>
      match IncrementalStore.getNode engine node with
      | .error e => (.error e, inner)
      | .ok (some state) =>
        (.ok true,
          { inner with
            nodes := mergeNodeState inner.nodes state
            missingNodes := inner.missingNodes.erase node }.reindexNodeRelationships node)
      | .ok none =>
        if inner.nodes.contains node then (.ok true, inner)
        else (.ok false, { inner with missingNodes := inner.missingNodes.insert node })

/-- What asking for a node does to the state: nothing, a note that it is missing, or the stored
state is merged. -/
theorem maybeLoadNode_cases (inner : Inner σ) (node : NodeId) :
    (maybeLoadNode node inner).2 = inner ∨
      inner.resident node = false ∧ inner.missingNodes.contains node = false ∧
        ∃ engine, inner.storageEngine = some engine ∧
          (IncrementalStore.getNode engine node = .ok none ∧ inner.nodes.contains node = false ∧
              (maybeLoadNode node inner).2 =
                { inner with missingNodes := inner.missingNodes.insert node } ∨
            ∃ state, IncrementalStore.getNode engine node = .ok (some state) ∧
              (maybeLoadNode node inner).2 = { inner with
                nodes := mergeNodeState inner.nodes state
                missingNodes := inner.missingNodes.erase node }.reindexNodeRelationships node) := by
  rw [maybeLoadNode]
  cases inner.resident node with
  | true => exact .inl rfl
  | false =>
    cases inner.missingNodes.contains node with
    | true => exact .inl rfl
    | false =>
      cases hengine : inner.storageEngine with
      | none => exact .inl rfl
      | some engine =>
        rcases hstored : IncrementalStore.getNode engine node with e | _ | state
        · simp [hstored]
        · cases hnode : inner.nodes.contains node with
          | true => simp [hstored]
          | false => exact .inr ⟨rfl, rfl, engine, rfl, .inl ⟨hstored, rfl, by simp [hstored]⟩⟩
        · exact .inr ⟨rfl, rfl, engine, rfl, .inr ⟨state, hstored, by simp [hstored]⟩⟩

/-- Asking for a node leaves the store attached. -/
theorem storageEngine_load (inner : Inner σ) (loaded : NodeId) :
    (maybeLoadNode loaded inner).2.storageEngine = inner.storageEngine := by
  rcases maybeLoadNode_cases inner loaded with heq | ⟨-, -, _, -, ⟨-, -, heq⟩ | ⟨_, -, heq⟩⟩ <;>
    rw [heq]
  rfl

/-- Refuse a write under a coordinated scope of another authority. -/
def ensureCanonicalWriteAllowed (anchor : NodeId) (segments : List String) : Call σ Unit := do
  let inner ← get
  match policyForPath inner.scopePolicies (watchPathKey anchor segments) with
  | none => pure ()
  | some (scope, policy) =>
    if policy.consistency = .coordinated ∧
        scopePolicyMatchesAuthorityActor policy inner.clock.actor = false then
      fail (.strictScopeUnavailable scope)
    else pure ()

/-- The node a path segment leads to, linked to a new child when the field is absent. -/
def followSegment (current : NodeId) (segment : String) : Call σ NodeId := do
  let inner ← get
  match inner.fieldValue current segment with
  | some (.link target) => pure target
  | some (.scalar _) | some (.bytes _) | some (.blob _) =>
    fail (.traversalIntoScalar current segment)
  | some (.set _) => fail (.traversalIntoSet current segment)
  | none => do
    modify (·.setField current segment (.link (derivedChildId current segment)))
    pure (derivedChildId current segment)

/-- Follow the segments of a path, creating what is missing. -/
def ensurePath : NodeId → List String → Call σ NodeId
  | current, [] => pure current
  | current, segment :: rest => do
    let _ ← maybeLoadNode current
    let next ← followSegment current segment
    modify (·.ensureNode next)
    ensurePath next rest

/-- The place a write goes to, created on the way. -/
def ensureFieldCursor (anchor : NodeId) (segments : List String) : Call σ Cursor :=
  if segments.isEmpty then pure (.node anchor)
  else do
    let found ← maybeLoadNode anchor
    if !found then modify (·.ensureNode anchor)
    let current ← ensurePath anchor segments.dropLast
    pure (.field current (segments.getLast?.getD ""))

/-- Write a parsed value that is not an object or a set. -/
def writeLeaf (node : NodeId) (field : String) : ParsedInput → Call σ Unit
  | .scalar value => modify (·.setField node field (.scalar value))
  | .bytes value => modify (·.setField node field (.bytes value))
  | .blob reference => modify (·.setField node field (.blob reference))
  | .link target => modify (·.setField node field (.link target))
  | .object _ | .set _ => pure ()

/-- The path of a field inside an object. -/
def fieldPath (path field : String) : String := if path.isEmpty then field else path ++ "." ++ field

mutual

/-- Write a value into a field. A parsed object is the object itself and the members of a parsed
set are the items of its marker, so the recursion runs along the input. -/
def writeValueToField (node : NodeId) (field : String) (value : JsonValue) (path : String) :
    Call σ Unit :=
  match value with
  | .object entries => do
    match ← ofExcept (parseInput (.object entries) path) with
    | .object _ =>
      let inner ← get
      let child := (inner.linkTarget node field).getD (derivedChildId node field)
      modify (·.ensureNode child)
      modify (·.setField node field (.link child))
      modify (·.ensureNode child)
      writeEntries child entries path
    | .set _ =>
      let ids ← writeSetMarker field entries path
      modify (·.setField node field (.set ids))
    | leaf => writeLeaf node field leaf
  | value => do
    let leaf ← ofExcept (parseInput value path)
    writeLeaf node field leaf

/-- Write the entries of an object into a node. -/
def writeEntries (node : NodeId) (entries : List (String × JsonValue)) (path : String) :
    Call σ Unit :=
  match entries with
  | [] => pure ()
  | (field, value) :: rest => do
    writeValueToField node field value (fieldPath path field)
    writeEntries node rest path

/-- Write the members of a set marker and return their ids. -/
def writeSetMarker (field : String) (entries : List (String × JsonValue)) (path : String) :
    Call σ (List NodeId) :=
  match entries with
  | [(_, .array items)] => writeMembers field items path 0
  | _ => pure []

/-- Write set members one after another. -/
def writeMembers (field : String) (items : List JsonValue) (path : String) (index : ℕ) :
    Call σ (List NodeId) :=
  match items with
  | [] => pure []
  | .object entries :: rest => do
    match parseLinkMarker entries with
    | some target =>
      let ids ← writeMembers field rest path (index + 1)
      pure (target :: ids)
    | none =>
      let memberId ← lift (·.nextNodeId (field ++ "-member"))
      modify (·.ensureNode memberId)
      modify (·.ensureNode memberId)
      writeEntries memberId entries (path ++ ".$set[" ++ toString index ++ "]")
      let ids ← writeMembers field rest path (index + 1)
      pure (memberId :: ids)
  | _ :: rest => writeMembers field rest path (index + 1)

end

/-- Write an object into a node. -/
def writeObjectToNode (node : NodeId) (entries : List (String × JsonValue)) (path : String) :
    Call σ Unit := do
  modify (·.ensureNode node)
  writeEntries node entries path

/-- Add a parsed value to a set and return the member id. -/
def addMemberToSet (node : NodeId) (field : String) (parsed : ParsedInput) (path : String) :
    Call σ NodeId := do
  let memberId ←
    match parsed with
    | .link target => pure target
    | .object entries => do
      let memberId ← lift (·.nextNodeId (field ++ "-member"))
      modify (·.ensureNode memberId)
      writeObjectToNode memberId entries path
      pure memberId
    | .scalar _ | .bytes _ | .blob _ | .set _ => fail (.invalidSetMember path)
  modify (·.addSetMember node field memberId)
  pure memberId

/-- The field a write call addresses. -/
def fieldCursor (anchor : NodeId) (segments : List String) : Call σ (NodeId × String) := do
  match ← ensureFieldCursor anchor segments with
  | .field node field => pure (node, field)
  | .node _ => fail (.expectedFieldPath (displayPath anchor segments))

/-- `put_json_inner`. -/
def putJsonInner (anchor : NodeId) (segments : List String) (value : JsonValue) : Call σ Unit := do
  ensureCanonicalWriteAllowed anchor segments
  if segments.isEmpty then
    match ← ofExcept (parseInput value (displayPath anchor segments)) with
    | .object entries => writeObjectToNode anchor entries (displayPath anchor segments)
    | _ => fail (.expectedObject (displayPath anchor segments))
  else
    let target ← fieldCursor anchor segments
    writeValueToField target.1 target.2 value (displayPath anchor segments)

/-- `unset_inner`. -/
def unsetInner (anchor : NodeId) (segments : List String) : Call σ Unit := do
  if segments.isEmpty then fail (.expectedFieldPath (displayPath anchor segments))
  ensureCanonicalWriteAllowed anchor segments
  let target ← fieldCursor anchor segments
  modify (·.deleteField target.1 target.2)

/-- `set_json_inner`. -/
def setJsonInner (anchor : NodeId) (segments : List String) (value : JsonValue) :
    Call σ NodeId := do
  if segments.isEmpty then fail (.expectedFieldPath (displayPath anchor segments))
  ensureCanonicalWriteAllowed anchor segments
  let target ← fieldCursor anchor segments
  let parsed ← ofExcept (parseInput value (displayPath anchor segments))
  addMemberToSet target.1 target.2 parsed (displayPath anchor segments)

/-- `remove_json_inner`. -/
def removeJsonInner (anchor : NodeId) (segments : List String) (value : JsonValue) :
    Call σ NodeId := do
  if segments.isEmpty then fail (.expectedFieldPath (displayPath anchor segments))
  ensureCanonicalWriteAllowed anchor segments
  let target ← fieldCursor anchor segments
  let member ← ofExcept (parseMemberReference value (displayPath anchor segments))
  modify (·.removeMemberFromSet target.1 target.2 member)
  pure member

end Primadb
