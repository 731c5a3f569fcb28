import Primadb.Core.Script
import Primadb.Db.Persist

/-!
# Calls as programs

The elementary accesses of calls to the database state as commands, and the calls
as programs that issue them. The programs follow the functions of the source line
by line; running a write program against the plain database gives the write call.
-/

namespace Primadb

/-- An access of a call to the database state. -/
inductive Command where
  /-- Check that a canonical write at a path is allowed. -/
  | authorize (anchor : NodeId) (segments : List String)
  /-- Load a node unless it is in memory. -/
  | load (node : NodeId)
  /-- Load a node and ignore an error. -/
  | tryLoad (node : NodeId)
  /-- Read a field in memory. -/
  | field (node : NodeId) (name : String)
  /-- Read a node in memory. -/
  | state (node : NodeId)
  /-- Create a node unless it is in memory. -/
  | ensure (node : NodeId)
  /-- Issue a node id. -/
  | nodeId (hint : String)
  /-- Issue and apply a local operation. -/
  | apply (action : OperationAction)
  /-- Read the edges leaving and entering a node. -/
  | edges (node : NodeId)
  /-- Read the records changed in memory. -/
  | overlay
  /-- Read records of the store. -/
  | storedRecords (scan : RecordScan)

/-- The answer to a command. -/
def Command.Answer : Command → Type
  | .authorize _ _ | .tryLoad _ | .ensure _ | .apply _ => Unit
  | .load _ => Bool
  | .field _ _ => Option FieldValue
  | .state _ => Option NodeState
  | .nodeId _ => NodeId
  | .edges _ => BTreeSet TraversalEdge × BTreeSet TraversalEdge
  | .overlay => BTreeMap String (Option RecordEntry)
  | .storedRecords _ => Option (List RecordEntry)

/-- A program of commands. -/
abbrev Program (α : Type) := Script Command Command.Answer PrimadbError α

/-- The edges of a node on both sides of the index. -/
def RelationshipIndex.edgesOf (index : RelationshipIndex) (node : NodeId) :
    BTreeSet TraversalEdge × BTreeSet TraversalEdge :=
  (index.outbound[node]?.getD ∅, index.inbound[node]?.getD ∅)

/-- The stored records of a range; without a store there are none. -/
def Inner.storedRecords {σ : Type} [RecordStore σ] (inner : Inner σ) (scan : RecordScan) :
    Except PrimadbError (Option (List RecordEntry)) :=
  match inner.storageEngine with
  | none => .ok none
  | some engine => RecordStore.scanRecordEntries engine scan

/-- The store of a state returns nodes under their own id. -/
def Inner.KeyedStore {σ : Type} [IncrementalStore σ] (inner : Inner σ) : Prop :=
  ∀ engine node state, inner.storageEngine = some engine →
    IncrementalStore.getNode engine node = .ok (some state) → state.id = node

/-- The effect of a command outside a transaction. -/
def Command.exec {σ : Type} [RecordStore σ] : (c : Command) → Call σ c.Answer
  | .authorize anchor segments => ensureCanonicalWriteAllowed anchor segments
  | .load node => maybeLoadNode node
  | .tryLoad node => fun inner => (.ok (), (maybeLoadNode node inner).2)
  | .field node name => Effect.gets (·.fieldValue node name)
  | .state node => Effect.gets fun inner => inner.nodes[node]?
  | .ensure node => Effect.modify (·.ensureNode node)
  | .nodeId hint => Effect.lift (·.nextNodeId hint)
  | .apply action => Effect.modify (·.applyLocal action.nspace action)
  | .edges node => Effect.gets fun inner => inner.relationshipIndex.edgesOf node
  | .overlay => Effect.gets Inner.recordOverlay
  | .storedRecords scan => fun inner => (inner.storedRecords scan, inner)

namespace Program

open Script (issue ofExcept)

/-- Load a node unless it is in memory. -/
def load (node : NodeId) : Program Bool := issue (Command.load node)

/-- Read a field in memory. -/
def field (node : NodeId) (name : String) : Program (Option FieldValue) :=
  issue (Command.field node name)

/-- Read a node in memory. -/
def state (node : NodeId) : Program (Option NodeState) := issue (Command.state node)

/-- Create a node unless it is in memory. -/
def ensure (node : NodeId) : Program Unit := issue (Command.ensure node)

/-- Issue a node id. -/
def nodeId (hint : String) : Program NodeId := issue (Command.nodeId hint)

/-- Issue and apply a local operation. -/
def apply (action : OperationAction) : Program Unit := issue (Command.apply action)

/-- Check that a canonical write at a path is allowed. -/
def authorize (anchor : NodeId) (segments : List String) : Program Unit :=
  issue (Command.authorize anchor segments)

/-- Follow one segment, linking a new child when the field is absent. -/
def followSegment (current : NodeId) (segment : String) : Program NodeId := do
  match ← field current segment with
  | some (.link target) => pure target
  | some (.scalar _) | some (.bytes _) | some (.blob _) =>
    .fail (.traversalIntoScalar current segment)
  | some (.set _) => .fail (.traversalIntoSet current segment)
  | none => do
    apply (.setField current segment (.link (derivedChildId current segment)))
    pure (derivedChildId current segment)

/-- Follow the segments of a path, creating what is missing. -/
def ensurePath : NodeId → List String → Program NodeId
  | current, [] => pure current
  | current, segment :: rest => do
    let _ ← load current
    let next ← followSegment current segment
    ensure next
    ensurePath next rest

/-- `ensure_field_cursor`. -/
def ensureFieldCursor (anchor : NodeId) (segments : List String) : Program Cursor :=
  if segments.isEmpty then pure (.node anchor)
  else do
    let found ← load anchor
    if !found then ensure anchor
    let current ← ensurePath anchor segments.dropLast
    pure (.field current (segments.getLast?.getD ""))

/-- Write a parsed value that is not an object or a set. -/
def writeLeaf (node : NodeId) (name : String) : ParsedInput → Program Unit
  | .scalar value => apply (.setField node name (.scalar value))
  | .bytes value => apply (.setField node name (.bytes value))
  | .blob reference => apply (.setField node name (.blob reference))
  | .link target => apply (.setField node name (.link target))
  | .object _ | .set _ => pure ()

/-- The child an object is written to: the linked node, or a derived one. -/
def childOf (node : NodeId) (name : String) : Option FieldValue → NodeId
  | some (.link target) => target
  | _ => derivedChildId node name

mutual

/-- `write_value_to_field`. -/
def writeValueToField (node : NodeId) (name : String) (value : JsonValue) (path : String) :
    Program Unit :=
  match value with
  | .object entries => do
    match ← ofExcept (parseInput (.object entries) path) with
    | .object _ =>
      let current ← field node name
      let child := childOf node name current
      ensure child
      apply (.setField node name (.link child))
      ensure child
      writeEntries child entries path
    | .set _ =>
      let ids ← writeSetMarker name entries path
      apply (.setField node name (.set ids))
    | leaf => writeLeaf node name leaf
  | value => do
    let leaf ← ofExcept (parseInput value path)
    writeLeaf node name leaf

/-- Write the entries of an object into a node. -/
def writeEntries (node : NodeId) (entries : List (String × JsonValue)) (path : String) :
    Program Unit :=
  match entries with
  | [] => pure ()
  | (name, value) :: rest => do
    writeValueToField node name value (fieldPath path name)
    writeEntries node rest path

/-- Write the members of a set marker and return their ids. -/
def writeSetMarker (name : String) (entries : List (String × JsonValue)) (path : String) :
    Program (List NodeId) :=
  match entries with
  | [(_, .array items)] => writeMembers name items path 0
  | _ => pure []

/-- Write set members one after another. -/
def writeMembers (name : String) (items : List JsonValue) (path : String) (index : ℕ) :
    Program (List NodeId) :=
  match items with
  | [] => pure []
  | .object entries :: rest => do
    match parseLinkMarker entries with
    | some target =>
      let ids ← writeMembers name rest path (index + 1)
      pure (target :: ids)
    | none =>
      let memberId ← nodeId (name ++ "-member")
      ensure memberId
      ensure memberId
      writeEntries memberId entries (path ++ ".$set[" ++ toString index ++ "]")
      let ids ← writeMembers name rest path (index + 1)
      pure (memberId :: ids)
  | _ :: rest => writeMembers name rest path (index + 1)

end

/-- `write_object_to_node`. -/
def writeObjectToNode (node : NodeId) (entries : List (String × JsonValue)) (path : String) :
    Program Unit := do
  ensure node
  writeEntries node entries path

/-- `add_member_to_set`. -/
def addMemberToSet (node : NodeId) (name : String) (parsed : ParsedInput) (path : String) :
    Program NodeId := do
  let memberId ←
    match parsed with
    | .link target => pure target
    | .object entries => do
      let memberId ← nodeId (name ++ "-member")
      ensure memberId
      writeObjectToNode memberId entries path
      pure memberId
    | .scalar _ | .bytes _ | .blob _ | .set _ => .fail (.invalidSetMember path)
  apply (.addSetMember node name memberId)
  pure memberId

/-- The field a write call addresses. -/
def fieldCursor (anchor : NodeId) (segments : List String) : Program (NodeId × String) := do
  match ← ensureFieldCursor anchor segments with
  | .field node name => pure (node, name)
  | .node _ => .fail (.expectedFieldPath (displayPath anchor segments))

/-- `put_json_inner`. -/
def putJson (anchor : NodeId) (segments : List String) (value : JsonValue) : Program Unit := do
  authorize anchor segments
  if segments.isEmpty then
    match ← ofExcept (parseInput value (displayPath anchor segments)) with
    | .object entries => writeObjectToNode anchor entries (displayPath anchor segments)
    | _ => .fail (.expectedObject (displayPath anchor segments))
  else
    let target ← fieldCursor anchor segments
    writeValueToField target.1 target.2 value (displayPath anchor segments)

/-- `unset_inner`. -/
def unset (anchor : NodeId) (segments : List String) : Program Unit := do
  if segments.isEmpty then .fail (.expectedFieldPath (displayPath anchor segments))
  authorize anchor segments
  let target ← fieldCursor anchor segments
  apply (.deleteField target.1 target.2)

/-- `set_json_inner`. -/
def setJson (anchor : NodeId) (segments : List String) (value : JsonValue) : Program NodeId := do
  if segments.isEmpty then .fail (.expectedFieldPath (displayPath anchor segments))
  authorize anchor segments
  let target ← fieldCursor anchor segments
  let parsed ← ofExcept (parseInput value (displayPath anchor segments))
  addMemberToSet target.1 target.2 parsed (displayPath anchor segments)

/-- `remove_json_inner`. -/
def removeJson (anchor : NodeId) (segments : List String) (value : JsonValue) :
    Program NodeId := do
  if segments.isEmpty then .fail (.expectedFieldPath (displayPath anchor segments))
  authorize anchor segments
  let target ← fieldCursor anchor segments
  let member ← ofExcept (parseMemberReference value (displayPath anchor segments))
  apply (.removeSetMember target.1 target.2 member)
  pure member

section Run

variable {σ : Type} [RecordStore σ]

/-- The run of a program outside a transaction. -/
def exec {α : Type} (program : Program α) : Call σ α := program.run Command.exec

@[simp] theorem exec_pure {α : Type} (a : α) : (pure a : Program α).exec (σ := σ) = pure a := rfl

@[simp] theorem exec_fail {α : Type} (e : PrimadbError) :
    exec (σ := σ) (Script.fail e : Program α) = Effect.fail e := rfl

@[simp] theorem exec_ofExcept {α : Type} (r : Except PrimadbError α) :
    exec (σ := σ) (ofExcept r : Program α) = Effect.ofExcept r := Script.run_ofExcept _ r

@[simp] theorem exec_bind {α β : Type} (m : Program α) (f : α → Program β) :
    (m >>= f).exec (σ := σ) = m.exec >>= fun a => (f a).exec := Script.run_bind _ m f

@[simp] theorem exec_load (node : NodeId) : (load node).exec (σ := σ) = maybeLoadNode node :=
  Script.run_issue _ _

@[simp] theorem exec_field (node : NodeId) (name : String) :
    (field node name).exec (σ := σ) = Effect.gets (·.fieldValue node name) :=
  Script.run_issue _ _

@[simp] theorem exec_ensure (node : NodeId) :
    (ensure node).exec (σ := σ) = Effect.modify (·.ensureNode node) := Script.run_issue _ _

@[simp] theorem exec_nodeId (hint : String) :
    (nodeId hint).exec (σ := σ) = Effect.lift (·.nextNodeId hint) := Script.run_issue _ _

@[simp] theorem exec_apply (action : OperationAction) :
    (apply action).exec (σ := σ) = Effect.modify (·.applyLocal action.nspace action) :=
  Script.run_issue _ _

@[simp] theorem exec_authorize (anchor : NodeId) (segments : List String) :
    (authorize anchor segments).exec (σ := σ) = ensureCanonicalWriteAllowed anchor segments :=
  Script.run_issue _ _

@[simp] theorem exec_followSegment (current : NodeId) (segment : String) :
    (followSegment current segment).exec (σ := σ) = Primadb.followSegment current segment := by
  funext inner
  rw [followSegment, Primadb.followSegment, exec_bind, exec_field, Effect.gets_bind,
    Effect.bind_ok (m := Effect.get) (rfl : Effect.get inner = _)]
  rcases inner.fieldValue current segment with _ | v
  · simp only [exec_bind, exec_apply]
    rfl
  · cases v <;> rfl

@[simp] theorem exec_ensurePath (current : NodeId) (segments : List String) :
    (ensurePath current segments).exec (σ := σ) = Primadb.ensurePath current segments := by
  induction segments generalizing current with
  | nil => rfl
  | cons segment rest ih =>
    simp only [ensurePath, Primadb.ensurePath, exec_bind, exec_load, exec_followSegment,
      exec_ensure, ih]

@[simp] theorem exec_ensureFieldCursor (anchor : NodeId) (segments : List String) :
    (ensureFieldCursor anchor segments).exec (σ := σ) =
      Primadb.ensureFieldCursor anchor segments := by
  simp only [ensureFieldCursor, Primadb.ensureFieldCursor]
  split
  · rfl
  · rw [exec_bind, exec_load]
    congr 1
    funext found
    cases found
    · simp only [Bool.not_false, if_true, exec_bind, exec_ensure, exec_ensurePath, exec_pure]
    · simp only [Bool.not_true, Bool.false_eq_true, if_false, exec_bind, exec_ensurePath,
        exec_pure]

@[simp] theorem exec_fieldCursor (anchor : NodeId) (segments : List String) :
    (fieldCursor anchor segments).exec (σ := σ) = Primadb.fieldCursor anchor segments := by
  simp only [fieldCursor, Primadb.fieldCursor, exec_bind, exec_ensureFieldCursor]
  congr 1
  funext cursor
  cases cursor <;> rfl

@[simp] theorem exec_writeLeaf (node : NodeId) (name : String) (parsed : ParsedInput) :
    (writeLeaf node name parsed).exec (σ := σ) = Primadb.writeLeaf node name parsed := by
  cases parsed <;> rfl

omit [RecordStore σ] in
/-- The child an object is written to, read from the state. -/
theorem childOf_fieldValue (inner : Inner σ) (node : NodeId) (name : String) :
    childOf node name (inner.fieldValue node name) =
      (inner.linkTarget node name).getD (derivedChildId node name) := by
  simp only [childOf, Inner.linkTarget]
  rcases inner.fieldValue node name with _ | v
  · rfl
  · cases v <;> rfl

mutual

@[simp] theorem exec_writeValueToField (node : NodeId) (name : String) (value : JsonValue)
    (path : String) :
    (writeValueToField node name value path).exec (σ := σ) =
      Primadb.writeValueToField node name value path := by
  cases value with
  | object entries =>
    rw [writeValueToField, Primadb.writeValueToField, exec_bind, exec_ofExcept]
    congr 1
    funext parsed
    cases parsed with
    | object _ =>
      simp only [exec_bind, exec_field, exec_ensure, exec_apply]
      funext inner
      rw [Effect.gets_bind, Effect.bind_ok (m := Effect.get) (rfl : Effect.get inner = _),
        childOf_fieldValue, exec_writeEntries _ entries]
      rfl
    | set _ =>
      simp only [exec_bind, exec_writeSetMarker, exec_apply]
      rfl
    | _ => exact exec_writeLeaf _ _ _
  | _ =>
    simp only [writeValueToField, Primadb.writeValueToField, exec_bind, exec_ofExcept,
      exec_writeLeaf]

@[simp] theorem exec_writeEntries (node : NodeId) (entries : List (String × JsonValue))
    (path : String) :
    (writeEntries node entries path).exec (σ := σ) = Primadb.writeEntries node entries path := by
  match entries with
  | [] => rfl
  | (name, value) :: rest =>
    simp only [writeEntries, Primadb.writeEntries, exec_bind]
    rw [exec_writeValueToField node name value, exec_writeEntries node rest path]

@[simp] theorem exec_writeSetMarker (name : String) (entries : List (String × JsonValue))
    (path : String) :
    (writeSetMarker name entries path).exec (σ := σ) =
      Primadb.writeSetMarker name entries path := by
  match entries with
  | [(_, .array items)] => exact exec_writeMembers name items path 0
  | [] | (_, .array _) :: _ :: _ | (_, .null) :: _ | (_, .bool _) :: _ | (_, .number _) :: _
  | (_, .string _) :: _ | (_, .object _) :: _ => rfl

@[simp] theorem exec_writeMembers (name : String) (items : List JsonValue) (path : String)
    (index : ℕ) :
    (writeMembers name items path index).exec (σ := σ) =
      Primadb.writeMembers name items path index := by
  match items with
  | [] => rfl
  | .object entries :: rest =>
    have hrest := exec_writeMembers name rest path (index + 1)
    rw [writeMembers, Primadb.writeMembers]
    cases parseLinkMarker entries with
    | some target => simp only [exec_bind, hrest, exec_pure]
    | none =>
      simp only [exec_bind, exec_nodeId, exec_ensure, hrest, exec_pure]
      simp only [exec_writeEntries _ entries]
  | .null :: rest | .bool _ :: rest | .number _ :: rest | .string _ :: rest | .array _ :: rest =>
    exact exec_writeMembers name rest path (index + 1)

end

@[simp] theorem exec_writeObjectToNode (node : NodeId) (entries : List (String × JsonValue))
    (path : String) :
    (writeObjectToNode node entries path).exec (σ := σ) =
      Primadb.writeObjectToNode node entries path := by
  simp only [writeObjectToNode, Primadb.writeObjectToNode, exec_bind, exec_ensure,
    exec_writeEntries]

@[simp] theorem exec_addMemberToSet (node : NodeId) (name : String) (parsed : ParsedInput)
    (path : String) :
    (addMemberToSet node name parsed path).exec (σ := σ) =
      Primadb.addMemberToSet node name parsed path := by
  cases parsed <;>
    simp only [addMemberToSet, Primadb.addMemberToSet, exec_bind, exec_pure, exec_fail,
      exec_nodeId, exec_ensure, exec_writeObjectToNode, exec_apply] <;> rfl

/-- Running the `put` program outside a transaction is the `put` call. -/
theorem exec_putJson (anchor : NodeId) (segments : List String) (value : JsonValue) :
    (putJson anchor segments value).exec (σ := σ) = putJsonInner anchor segments value := by
  simp only [putJson, putJsonInner, exec_bind, exec_authorize]
  congr 1
  funext _
  split
  · rw [exec_bind, exec_ofExcept]
    congr 1
    funext parsed
    cases parsed <;> first | rfl | exact exec_writeObjectToNode _ _ _
  · simp only [exec_bind, exec_fieldCursor, exec_writeValueToField]

/-- Running the `unset` program outside a transaction is the `unset` call. -/
theorem exec_unset (anchor : NodeId) (segments : List String) :
    (unset anchor segments).exec (σ := σ) = unsetInner anchor segments := by
  simp only [unset, unsetInner]
  split
  · rfl
  · simp only [exec_bind, exec_authorize, exec_fieldCursor, exec_apply]
    rfl

/-- Running the `set` program outside a transaction is the `set` call. -/
theorem exec_setJson (anchor : NodeId) (segments : List String) (value : JsonValue) :
    (setJson anchor segments value).exec (σ := σ) = setJsonInner anchor segments value := by
  simp only [setJson, setJsonInner]
  split
  · rfl
  · simp only [exec_bind, exec_authorize, exec_fieldCursor, exec_ofExcept, exec_addMemberToSet]

/-- Running the `remove` program outside a transaction is the `remove` call. -/
theorem exec_removeJson (anchor : NodeId) (segments : List String) (value : JsonValue) :
    (removeJson anchor segments value).exec (σ := σ) = removeJsonInner anchor segments value := by
  simp only [removeJson, removeJsonInner]
  split
  · rfl
  · simp only [exec_bind, exec_pure, exec_authorize, exec_fieldCursor, exec_ofExcept, exec_apply]
    rfl

end Run

end Program

/-- A write call of a chain. -/
inductive ChainWrite where
  | put (anchor : NodeId) (segments : List String) (value : JsonValue)
  | unset (anchor : NodeId) (segments : List String)
  | set (anchor : NodeId) (segments : List String) (value : JsonValue)
  | remove (anchor : NodeId) (segments : List String) (value : JsonValue)

namespace ChainWrite

/-- The program of a write call. -/
def program : ChainWrite → Program Unit
  | put anchor segments value => Program.putJson anchor segments value
  | unset anchor segments => Program.unset anchor segments
  | set anchor segments value => do
    let _ ← Program.setJson anchor segments value
    pure ()
  | remove anchor segments value => do
    let _ ← Program.removeJson anchor segments value
    pure ()

variable {σ : Type} [RecordStore σ]

/-- The call itself, without the member id that `set` and `remove` return. -/
def run : ChainWrite → Call σ Unit
  | put anchor segments value => putJson anchor segments value
  | unset anchor segments => Primadb.unset anchor segments
  | set anchor segments value => do
    let _ ← setJson anchor segments value
    pure ()
  | remove anchor segments value => do
    let _ ← removeJson anchor segments value
    pure ()

/-- A chained write runs its program and persists. -/
theorem run_eq (call : ChainWrite) :
    (call.run : Call σ Unit) = call.program.exec >>= fun _ => persistIfNeeded := by
  have hmember : ∀ m : Call σ NodeId, (do
      let _ ← (do
        let member ← m
        persistIfNeeded
        pure member)
      pure ()) = (do let _ ← m; pure ()) >>= fun _ => persistIfNeeded := by
    intro m
    funext inner
    simp only [Effect.bind_apply]
    rcases m inner with ⟨e | member, t⟩
    · rfl
    · simp only [Effect.pure_apply]
      rcases persistIfNeeded t with ⟨e | _, u⟩ <;> rfl
  cases call with
  | put anchor segments value =>
    rw [program, Program.exec_putJson]
    rfl
  | unset anchor segments =>
    rw [program, Program.exec_unset]
    rfl
  | set anchor segments value =>
    rw [program, Program.exec_bind, Program.exec_setJson]
    exact hmember _
  | remove anchor segments value =>
    rw [program, Program.exec_bind, Program.exec_removeJson]
    exact hmember _

end ChainWrite

end Primadb
