import Primadb.Data.Value

/-!
# Operations

The replicated operations and the queue that compacts them. A queue keeps one
operation for each state slot, at the position where the slot first appeared.
-/

namespace Primadb

/-- The value assigned by a field operation. -/
inductive OperationValue where
  | scalar (value : JsonValue)
  | bytes (value : BinaryBytes)
  | blob (reference : BlobRef)
  | link (target : NodeId)
  | set (members : List NodeId)
  deriving DecidableEq, Repr

/-- The four kinds of replicated change. -/
inductive OperationAction where
  | setField (node : NodeId) (field : String) (value : OperationValue)
  | addSetMember (node : NodeId) (field : String) (member : NodeId)
  | removeSetMember (node : NodeId) (field : String) (member : NodeId)
  | deleteField (node : NodeId) (field : String)
  deriving DecidableEq, Repr

/-- A replicated operation. -/
structure Operation where
  /-- Id of the operation. -/
  opId : String
  /-- Replica that wrote it. -/
  author : String
  /-- Revision issued for it. -/
  revision : Revision
  /-- The change it stands for. -/
  action : OperationAction
  deriving DecidableEq, Repr

namespace OperationAction

/-- The node an action changes. -/
def node : OperationAction → NodeId
  | setField node _ _ | addSetMember node _ _ | removeSetMember node _ _ | deleteField node _ =>
    node

/-- The field an action changes. -/
def field : OperationAction → String
  | setField _ field _ | addSetMember _ field _ | removeSetMember _ field _ |
    deleteField _ field => field

end OperationAction

namespace Operation

/-- The marker an operation is compared by. -/
def marker (op : Operation) : VersionMarker := ⟨op.revision, op.opId⟩

end Operation

/-- The node whose state an operation changes. -/
def operationSourceNode (op : Operation) : NodeId := op.action.node

/-- The path of the slot an operation changes. -/
def operationTouchedPath (op : Operation) : String := op.action.node ++ "/" ++ op.action.field

/-- The identity of the state slot an operation updates. -/
inductive OperationCompactionKey where
  | field (node field : String)
  | setMember (node field member : String)
  deriving DecidableEq, Repr

namespace OperationCompactionKey

/-- A total order on keys; the source hashes them, and no result depends on the order. -/
def order : OperationCompactionKey → String ×ₗ String ×ₗ WithBot String
  | field node f => toLex (node, toLex (f, ⊥))
  | setMember node f member => toLex (node, toLex (f, (member : WithBot String)))

/-- The order key determines the compaction key. -/
theorem order_injective : Function.Injective order := by
  intro a b h
  cases a <;> cases b <;> simp_all [order]

instance : LinearOrder OperationCompactionKey := LinearOrder.lift' order order_injective

instance : Std.LawfulEqOrd OperationCompactionKey where
  eq_of_compare h := compare_eq_iff_eq.mp h

instance : Std.TransOrd OperationCompactionKey := inferInstance

/-- The key of an operation. -/
def fromOperation (op : Operation) : OperationCompactionKey :=
  match op.action with
  | .setField node f _ | .deleteField node f => .field node f
  | .addSetMember node f member | .removeSetMember node f member => .setMember node f member

end OperationCompactionKey

/-- A queue holding at most one operation for each compaction key. -/
structure CompactedOperations where
  /-- The queued operations in first-occurrence order. -/
  operations : List Operation
  /-- The position of each queued key. -/
  indices : BTreeMap OperationCompactionKey ℕ
  deriving DecidableEq

namespace CompactedOperations

/-- The empty queue. -/
def empty : CompactedOperations := ⟨[], ∅⟩

/-- Queue an operation: a newer operation replaces the queued one of its slot in place. -/
def push (queue : CompactedOperations) (op : Operation) : CompactedOperations :=
  let key := OperationCompactionKey.fromOperation op
  match queue.indices[key]? with
  | some index =>
    match queue.operations[index]? with
    | some existing =>
      if op.revision ≥ existing.revision then
        { queue with operations := queue.operations.set index op }
      else queue
    | none => queue
  | none =>
    ⟨queue.operations ++ [op], queue.indices.insert key queue.operations.length⟩

/-- Queue operations one after another from empty. -/
def fromOperations (operations : List Operation) : CompactedOperations :=
  operations.foldl push empty

/-- Number of queued operations. -/
def len (queue : CompactedOperations) : ℕ := queue.operations.length

/-- Rebuild the positions from the queued operations. -/
def rebuildIndices (queue : CompactedOperations) : CompactedOperations :=
  { queue with
    indices := queue.operations.zipIdx.foldl
      (fun indices entry => indices.insert (OperationCompactionKey.fromOperation entry.1) entry.2)
      ∅ }

/-- Drop the first `count` operations and shift the remaining positions. -/
def drainPrefix (queue : CompactedOperations) (count : ℕ) : CompactedOperations :=
  ⟨queue.operations.drop count,
    (queue.indices.filter fun _ index => count ≤ index).map fun _ index => index - count⟩

end CompactedOperations

end Primadb
