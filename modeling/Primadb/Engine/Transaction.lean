import Primadb.Engine.Interface

/-!
# Building storage transactions

A transaction stores whole node states together with what is derived from them:
direct index entries of every scalar reachable over links, the manifests naming
the entries of each node, and the records. Derivation looks only at the nodes of
the transaction.
-/

namespace Primadb

/-- Two lower-case hexadecimal digits. -/
def hexByte (n : ℕ) : List Char :=
  [Nat.digitChar (n / 16 % 16), Nat.digitChar (n % 16)]

/-- Hexadecimal form of the UTF-8 bytes of a component. -/
def encodeComponent (input : String) : String :=
  String.ofList ((input.toList.flatMap String.utf8EncodeChar).flatMap fun byte =>
    hexByte byte.toNat)

/-- Hexadecimal digits padded to sixteen places. -/
def hex16 (n : ℕ) : String :=
  let digits := Nat.toDigits 16 n
  String.ofList (List.replicate (16 - digits.length) '0' ++ digits)

/-- The order-preserving text of a scalar; arrays and objects have none. -/
def sortableScalarKey : JsonValue → Option String
  | .string value => some ("s_" ++ encodeComponent value)
  | .number value =>
    let bits := value.toF64Bits
    some ("n_" ++ hex16 (if bits < 2 ^ 63 then bits + 2 ^ 63 else 2 ^ 64 - 1 - bits))
  | .bool value => some (if value then "b_1" else "b_0")
  | .null => some "z_null"
  | .array _ | .object _ => none

/-- The key of an index entry. -/
def directIndexKey (path sortableKey nodeId : String) : String :=
  "direct/" ++ encodeComponent path ++ "/" ++ sortableKey ++ "/" ++ encodeComponent nodeId

/-- A scalar below a node. -/
structure DirectScalarIndexFragment where
  /-- Path below the node. -/
  path : String
  /-- The scalar. -/
  value : JsonValue
  /-- Its order-preserving text. -/
  sortableKey : String
  deriving DecidableEq

/-- Finished fragments of nodes outside cycles. -/
abbrev FragmentCache := BTreeMap NodeId (List DirectScalarIndexFragment)

/-- Put a fragment of a linked node below the linking field. -/
def DirectScalarIndexFragment.below (field : String) (fragment : DirectScalarIndexFragment) :
    DirectScalarIndexFragment :=
  { fragment with path := if fragment.path.isEmpty then field else field ++ "." ++ fragment.path }

/-- Collected scalars, whether a cycle was met, and the cache. -/
abbrev Collected := (List DirectScalarIndexFragment × Bool) × FragmentCache

/-- Collect the scalars below a node. The answer says whether a cycle was met; only results
without one are kept for reuse. The fuel bounds the length of a path of distinct nodes, and there is
no answer without fuel. -/
def storageCollectScalarFragments (nodes : BTreeMap NodeId NodeState) :
    ℕ → NodeId → BTreeSet NodeId → FragmentCache → Option Collected
  | 0, _, _, _ => none
  | fuel + 1, nodeId, visited, cache =>
    match cache[nodeId]? with
    | some fragments => some ((fragments, false), cache)
    | none =>
      if visited.contains nodeId then some (([], true), cache)
      else
        let fields := (nodes[nodeId]?.map fun state => state.fields.toList).getD []
        let collected : Option Collected := fields.foldlM
          (fun (acc : Collected) entry =>
            match entry.2.value with
            | .scalar value =>
              match sortableScalarKey value with
              | some key => some ((acc.1.1 ++ [⟨entry.1, value, key⟩], acc.1.2), acc.2)
              | none => some acc
            | .link target =>
              (storageCollectScalarFragments nodes fuel target (visited.insert nodeId) acc.2).map
                fun child : Collected =>
                  ((acc.1.1 ++ child.1.1.map (·.below entry.1), acc.1.2 || child.1.2), child.2)
            | .set _ | .bytes _ | .blob _ => some acc)
          (([], false), cache)
        collected.map fun ((fragments, containsCycle), cache) =>
          ((fragments, containsCycle),
            if containsCycle then cache else cache.insert nodeId fragments)

/-- The index entries of a node; the fuel suffices. -/
def directScalarIndexes (nodes : BTreeMap NodeId NodeState) (nodeId : NodeId)
    (cache : FragmentCache) : BTreeMap String DirectScalarIndexEntry × FragmentCache :=
  let collected := (storageCollectScalarFragments nodes (nodes.size + 2) nodeId ∅ cache).getD
    (([], false), cache)
  (collected.1.1.foldl
    (fun indexes fragment =>
      indexes.insert (directIndexKey fragment.path fragment.sortableKey nodeId)
        ⟨nodeId, fragment.path, fragment.value, fragment.sortableKey⟩) ∅, collected.2)

/-- `build_storage_transaction`. -/
def buildStorageTransaction (id : ℕ) (metadata : StorageMetadata)
    (nodes : BTreeMap NodeId NodeState) : StorageTransaction :=
  let start : StorageTransaction := ⟨id, metadata, nodes, ∅, ∅, ∅, ∅, ∅, []⟩
  (nodes.toList.foldl
    (fun (acc : StorageTransaction × FragmentCache) entry =>
      let direct := directScalarIndexes nodes entry.1 acc.2
      let tx := acc.1
      let tx :=
        { tx with
          nodeIndexes := tx.nodeIndexes.insert entry.1 ⟨direct.1.keys⟩
          directIndexes := tx.directIndexes.insertMany direct.1.toList
          authMeta := tx.authMeta.insert entry.1 ⟨∅⟩ }
      let tx :=
        if isRecordNodeId entry.1 then
          match recordKeyFromNodeState entry.2 with
          | some key =>
            match recordEntryFromNodeState entry.2 with
            | some record => { tx with records := tx.records.insert record.key record }
            | none => { tx with deletedRecords := tx.deletedRecords.insert key }
          | none => tx
        else tx
      (tx, direct.2))
    (start, ∅)).1

/-- The nodes named by operations. -/
def touchedNodes (ops : List Operation) : BTreeSet NodeId :=
  ops.foldl (fun touched op => touched.insert op.action.node) ∅

/-- The proper path prefixes of an id, longest first. -/
def parentIds (nodeId : NodeId) : List NodeId :=
  (nodeId.toList.tails.filterMap fun suffix =>
    if suffix.head? = some '/' then
      some (String.ofList (nodeId.toList.take (nodeId.toList.length - suffix.length)))
    else none).reverse

/-- The nodes named by operations and their path parents in memory. -/
def touchedStorageNodes (nodes : BTreeMap NodeId NodeState) (ops : List Operation) :
    BTreeSet NodeId :=
  let direct := touchedNodes ops
  direct.toList.foldl
    (fun touched nodeId =>
      (parentIds nodeId).foldl
        (fun touched parent => if nodes.contains parent then touched.insert parent else touched)
        touched)
    direct

/-- `build_storage_transaction_from_ops`. -/
def buildStorageTransactionFromOps (id : ℕ) (metadata : StorageMetadata)
    (nodes : BTreeMap NodeId NodeState) (ops : List Operation) : StorageTransaction :=
  let touched := touchedStorageNodes nodes ops
  { buildStorageTransaction id metadata (nodes.filter fun nodeId _ => touched.contains nodeId) with
    journalOps := ops }

end Primadb
