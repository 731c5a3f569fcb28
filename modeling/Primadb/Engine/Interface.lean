import Primadb.Core.Effect
import Primadb.Data.Record

/-!
# The incremental store interface

What a database hands to its store and what it reads back. Transaction ids are
64-bit numbers that saturate.
-/

namespace Primadb

/-- `u64::saturating_add(1)` on transaction ids. -/
def txSucc (id : ℕ) : ℕ := min (id + 1) (2 ^ 64 - 1)

/-- The database state stored beside the nodes. -/
structure StorageMetadata where
  /-- Version of the stored layout. -/
  schemaVersion : ℕ
  clock : HybridClock
  /-- The pending queue. -/
  pendingOps : List Operation
  /-- Id of the next transaction. -/
  nextTxId : ℕ
  /-- Last transaction reflected in the stored files. -/
  lastMaterializedTxId : ℕ
  scopePolicies : BTreeMap String ScopePolicy
  deriving DecidableEq

/-- `StorageMetadata::new`. -/
def StorageMetadata.new (clock : HybridClock) (pendingOps : List Operation) (nextTxId : ℕ) :
    StorageMetadata :=
  ⟨1, clock, pendingOps, nextTxId, nextTxId - 1, ∅⟩

/-- One scalar reachable from a node, under its path. -/
structure DirectScalarIndexEntry where
  /-- The indexed node. -/
  nodeId : NodeId
  /-- Path of the scalar below the node. -/
  path : String
  /-- The scalar. -/
  value : JsonValue
  /-- Its order-preserving text. -/
  sortableKey : String
  deriving DecidableEq

/-- The index keys a node owns. -/
structure NodeIndexManifest where
  /-- The keys in order. -/
  directIndexKeys : List String
  deriving DecidableEq

/-- Signature metadata of a node's fields; without the crypto feature it is always blank. -/
structure AuthNodeMeta where
  /-- The signed fields with their signer. -/
  signedFields : BTreeMap String String
  deriving DecidableEq

/-- One commit. -/
structure StorageTransaction where
  /-- Transaction id. -/
  id : ℕ
  /-- Metadata to store. -/
  metadata : StorageMetadata
  /-- Node states to store. -/
  nodes : BTreeMap NodeId NodeState
  /-- Index manifests of those nodes. -/
  nodeIndexes : BTreeMap NodeId NodeIndexManifest
  /-- Index entries to store. -/
  directIndexes : BTreeMap String DirectScalarIndexEntry
  /-- Records to store. -/
  records : BTreeMap String RecordEntry
  /-- Records to remove. -/
  deletedRecords : BTreeSet String
  /-- Signature metadata. -/
  authMeta : BTreeMap NodeId AuthNodeMeta
  /-- The operations the commit stands for. -/
  journalOps : List Operation
  deriving DecidableEq

/-- The whole of a store, as exported. -/
structure DatabaseSnapshot where
  clock : HybridClock
  nodes : BTreeMap NodeId NodeState
  /-- The pending queue. -/
  pendingOps : List Operation
  scopePolicies : BTreeMap String ScopePolicy
  deriving DecidableEq

/-- The calls a database makes on its store. -/
class IncrementalStore (σ : Type) where
  /-- Metadata of the last commit. -/
  loadMetadata : σ → Except PrimadbError (Option StorageMetadata)
  /-- Commit a transaction. -/
  applyTransaction : StorageTransaction → Effect σ PrimadbError Unit
  /-- Read one node. -/
  getNode : σ → NodeId → Except PrimadbError (Option NodeState)

/-- The store of a database that has none. -/
instance : IncrementalStore Empty where
  loadMetadata := Empty.elim
  applyTransaction _ := Empty.elim
  getNode store _ := store.elim

/-- A store that can be scanned for records. -/
class RecordStore (σ : Type) extends IncrementalStore σ where
  /-- The stored records of a range, when the store keeps records. -/
  scanRecordEntries : σ → RecordScan → Except PrimadbError (Option (List RecordEntry))

instance : RecordStore Empty where
  scanRecordEntries := Empty.elim

end Primadb
