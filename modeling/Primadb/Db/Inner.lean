import Primadb.Engine.Interface
import Primadb.Graph.Merge

/-!
# The database state

`Inner` with the parts the modelled calls read or write, the application of one
operation and the loading of a node from the store. Transaction journals are
absent: outside a transaction every journal call is a no-op.
-/

namespace Primadb

/-- The readings of the system clock, one after another. -/
structure WallClock where
  readings : ℕ → UInt64
  /-- Number of readings taken. -/
  taken : ℕ

/-- `now_millis`. -/
def WallClock.nowMillis (wall : WallClock) : UInt64 × WallClock :=
  (wall.readings wall.taken, { wall with taken := wall.taken + 1 })

/-- Kinds of relationship edges. -/
inductive TraversalEdgeKind where
  | link
  | setMember
  deriving DecidableEq

/-- An edge of the graph. -/
structure TraversalEdge where
  /-- Node holding the field. -/
  source : NodeId
  field : String
  /-- Node it points to. -/
  target : NodeId
  /-- Whether the field is a link or a set. -/
  kind : TraversalEdgeKind
  deriving DecidableEq

/-- The order key of an edge: its fields in order, links before set members. -/
def TraversalEdge.key (edge : TraversalEdge) : String ×ₗ String ×ₗ String ×ₗ ℕ :=
  toLex (edge.source, toLex (edge.field, toLex (edge.target,
    match edge.kind with
    | .link => 0
    | .setMember => 1)))

private theorem TraversalEdge.key_injective : Function.Injective TraversalEdge.key := by
  rintro ⟨s, f, t, k⟩ ⟨s', f', t', k'⟩ h
  cases k <;> cases k' <;> simp_all [TraversalEdge.key]

instance : LinearOrder TraversalEdge :=
  LinearOrder.lift' TraversalEdge.key TraversalEdge.key_injective

instance : Std.LawfulEqOrd TraversalEdge where
  eq_of_compare h := compare_eq_iff_eq.mp h

instance : Std.TransOrd TraversalEdge := inferInstance

/-- Edges by source and by target. -/
structure RelationshipIndex where
  /-- Edges leaving each node. -/
  outbound : BTreeMap NodeId (BTreeSet TraversalEdge)
  /-- Edges entering each node. -/
  inbound : BTreeMap NodeId (BTreeSet TraversalEdge)

namespace RelationshipIndex

/-- The index without edges. -/
def empty : RelationshipIndex := ⟨∅, ∅⟩

/-- Add an edge on both sides. -/
def insert (index : RelationshipIndex) (edge : TraversalEdge) : RelationshipIndex :=
  ⟨index.outbound.insert edge.source ((index.outbound[edge.source]?.getD ∅).insert edge),
    index.inbound.insert edge.target ((index.inbound[edge.target]?.getD ∅).insert edge)⟩

/-- Remove the edges leaving a node on both sides. -/
def removeSource (index : RelationshipIndex) (source : NodeId) : RelationshipIndex :=
  match index.outbound[source]? with
  | none => index
  | some edges =>
    edges.toList.foldl
      (fun index edge =>
        match index.inbound[edge.target]? with
        | some inbound =>
          let inbound := inbound.erase edge
          if inbound.isEmpty then { index with inbound := index.inbound.erase edge.target }
          else { index with inbound := index.inbound.insert edge.target inbound }
        | none => index)
      { index with outbound := index.outbound.erase source }

end RelationshipIndex

/-- The edges of a node state. -/
def nodeEdges (node : NodeId) (state : NodeState) : List TraversalEdge :=
  state.fields.toList.flatMap fun entry =>
    match entry.2.value with
    | .link target => [⟨node, entry.1, target, .link⟩]
    | .set set => set.members.keys.map fun target => ⟨node, entry.1, target, .setMember⟩
    | .scalar _ | .bytes _ | .blob _ => []

/-- Limits read by the modelled calls. -/
structure PrimadbLimits where
  /-- Greatest length of the pending queue. -/
  maxPendingOps : ℕ
  deriving DecidableEq

/-- The default limits. -/
def PrimadbLimits.default : PrimadbLimits := ⟨32768⟩

/-- Where an operation comes from. -/
inductive OperationOrigin where
  | local
  | remote
  deriving DecidableEq

/-- The state of a database over a store of type `σ`. -/
structure Inner (σ : Type) where
  /-- The system clock. -/
  wall : WallClock
  clock : HybridClock
  /-- Nodes in memory. -/
  nodes : BTreeMap NodeId NodeState
  /-- Records changed in memory, by key. -/
  recordOverlay : BTreeMap String (Option RecordEntry)
  recordOverlayNodeKeys : BTreeMap NodeId String
  /-- Local operations not yet sent. -/
  pendingOps : CompactedOperations
  /-- Operations not yet stored. -/
  unflushedOps : CompactedOperations
  /-- The store, when one is attached. -/
  storageEngine : Option σ
  /-- Nodes known to be absent from the store. -/
  missingNodes : BTreeSet NodeId
  relationshipIndex : RelationshipIndex
  /-- Policies by scope. -/
  scopePolicies : BTreeMap String ScopePolicy
  /-- Id of the next storage transaction. -/
  nextStorageTxId : ℕ
  limits : PrimadbLimits

namespace Inner

variable {σ : Type}

/-- `Primadb::with_replica_id`: an empty database without a store. -/
def withReplicaId (replicaId : String) (wall : WallClock) : Inner σ :=
  let now := wall.nowMillis
  { wall := now.2
    clock := HybridClock.withActor replicaId now.1
    nodes := ∅
    recordOverlay := ∅
    recordOverlayNodeKeys := ∅
    pendingOps := .empty
    unflushedOps := .empty
    storageEngine := none
    missingNodes := ∅
    relationshipIndex := .empty
    scopePolicies := ∅
    nextStorageTxId := 1
    limits := .default }

/-- A fresh in-memory database under some scope policies and limits. -/
def configured (replicaId : String) (wall : WallClock) (policies : BTreeMap String ScopePolicy)
    (limits : PrimadbLimits) : Inner σ :=
  { withReplicaId replicaId wall with scopePolicies := policies, limits := limits }

/-- Bring the overlay entry of a record node up to date. -/
def refreshRecordOverlay (inner : Inner σ) (nodeId : NodeId) : Inner σ :=
  if !isRecordNodeId nodeId then inner
  else
    let inner :=
      match inner.recordOverlayNodeKeys[nodeId]? with
      | some previous =>
        { inner with
          recordOverlayNodeKeys := inner.recordOverlayNodeKeys.erase nodeId
          recordOverlay := inner.recordOverlay.erase previous }
      | none => inner
    match inner.nodes[nodeId]? with
    | none => inner
    | some state =>
      match recordKeyFromNodeState state with
      | none => inner
      | some key =>
        { inner with
          recordOverlayNodeKeys := inner.recordOverlayNodeKeys.insert nodeId key
          recordOverlay := inner.recordOverlay.insert key (recordEntryFromNodeState state) }

/-- Rebuild the edges leaving a node. -/
def reindexNodeRelationships (inner : Inner σ) (node : NodeId) : Inner σ :=
  let index := inner.relationshipIndex.removeSource node
  { inner with
    relationshipIndex :=
      match inner.nodes[node]? with
      | none => index
      | some state => (nodeEdges node state).foldl RelationshipIndex.insert index }

/-- Whether scope policies admit a remote operation. -/
def remoteOperationAllowed (inner : Inner σ) (op : Operation) : Bool :=
  match policyForPath inner.scopePolicies (operationTouchedPath op) with
  | none => true
  | some (_, policy) =>
    policy.consistency != .coordinated || scopePolicyMatchesAuthorityActor policy op.author

/-- The admission test of `apply_operation_internal`. -/
def admits (inner : Inner σ) (op : Operation) : OperationOrigin → Bool
  | .local => decide (inner.pendingOps.len < inner.limits.maxPendingOps)
  | .remote => inner.remoteOperationAllowed op

/-- The effect of an admitted operation. -/
def applyAdmitted (inner : Inner σ) (op : Operation) (origin : OperationOrigin) :
    Bool × Inner σ :=
  let inner := { inner with clock := inner.clock.observe op.revision }
  let (nodes, accepted) := applyToNodes inner.nodes op
  let inner := { inner with nodes := nodes }
  if accepted then
    let inner := inner.refreshRecordOverlay (operationSourceNode op)
    let inner := inner.reindexNodeRelationships (operationSourceNode op)
    let inner := { inner with unflushedOps := inner.unflushedOps.push op }
    match origin with
    | .local => (true, { inner with pendingOps := inner.pendingOps.push op })
    | .remote => (true, inner)
  else (false, inner)

/-- Apply one operation; the result says whether it was accepted. -/
def applyOperationInternal (inner : Inner σ) (op : Operation) (origin : OperationOrigin) :
    Bool × Inner σ :=
  if inner.admits op origin then inner.applyAdmitted op origin else (false, inner)

/-- A refresh touches the overlay alone. -/
theorem refreshRecordOverlay_eq (inner : Inner σ) (nodeId : NodeId) :
    ∃ overlay keys, inner.refreshRecordOverlay nodeId =
      { inner with recordOverlay := overlay, recordOverlayNodeKeys := keys } := by
  simp only [refreshRecordOverlay]
  repeat' split
  all_goals exact ⟨_, _, rfl⟩

/-- Everything an admitted operation does. -/
theorem applyAdmitted_eq (inner : Inner σ) (op : Operation) (origin : OperationOrigin) :
    (inner.applyAdmitted op origin).1 = (applyToNodes inner.nodes op).2 ∧
    ∃ overlay keys index, (inner.applyAdmitted op origin).2 =
      { inner with
        clock := inner.clock.observe op.revision
        nodes := (applyToNodes inner.nodes op).1
        recordOverlay := overlay
        recordOverlayNodeKeys := keys
        relationshipIndex := index
        unflushedOps :=
          if (applyToNodes inner.nodes op).2 then inner.unflushedOps.push op
          else inner.unflushedOps
        pendingOps :=
          if (applyToNodes inner.nodes op).2 ∧ origin = .local then inner.pendingOps.push op
          else inner.pendingOps } := by
  simp only [applyAdmitted]
  cases hacc : (applyToNodes inner.nodes op).2 with
  | false => exact ⟨rfl, _, _, _, rfl⟩
  | true =>
    obtain ⟨overlay, keys, h⟩ := refreshRecordOverlay_eq
      { inner with
        clock := inner.clock.observe op.revision
        nodes := (applyToNodes inner.nodes op).1 } (operationSourceNode op)
    simp only [if_true, h, reindexNodeRelationships]
    cases origin <;> exact ⟨rfl, _, _, _, rfl⟩

/-- An admitted operation changes the nodes as the graph model says. -/
theorem applyAdmitted_nodes (inner : Inner σ) (op : Operation) (origin : OperationOrigin) :
    (inner.applyAdmitted op origin).2.nodes = (applyToNodes inner.nodes op).1 := by
  obtain ⟨-, overlay, keys, index, h⟩ := inner.applyAdmitted_eq op origin
  rw [h]

/-- Applying an operation leaves store, policies and limits alone. -/
theorem applyOperationInternal_frame (inner : Inner σ) (op : Operation)
    (origin : OperationOrigin) :
    (inner.applyOperationInternal op origin).2.storageEngine = inner.storageEngine ∧
    (inner.applyOperationInternal op origin).2.scopePolicies = inner.scopePolicies ∧
    (inner.applyOperationInternal op origin).2.limits = inner.limits := by
  rw [applyOperationInternal]
  split
  · obtain ⟨-, overlay, keys, index, h⟩ := inner.applyAdmitted_eq op origin
    rw [h]
    exact ⟨rfl, rfl, rfl⟩
  · exact ⟨rfl, rfl, rfl⟩

end Inner

end Primadb
