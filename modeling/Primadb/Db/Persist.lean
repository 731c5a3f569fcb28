import Primadb.Db.Read
import Primadb.Engine.Transaction

/-!
# Calls and persistence

Every successful write call ends by persisting: the nodes touched by the
unflushed operations, or all nodes in memory when there are none, go to the store
in one transaction. Attaching a store that holds data drops the memory state and
takes clock, queue and policies from the store.
-/

namespace Primadb

open Effect

namespace Inner

variable {σ : Type}

/-- `storage_metadata_from_inner`. -/
def storageMetadata (inner : Inner σ) (nextTxId : ℕ) : StorageMetadata :=
  { StorageMetadata.new inner.clock inner.pendingOps.operations nextTxId with
    scopePolicies := inner.scopePolicies }

/-- The transaction of the next persist. -/
def storageTransaction (inner : Inner σ) : StorageTransaction :=
  let id := inner.nextStorageTxId
  let metadata := inner.storageMetadata (txSucc id)
  if inner.unflushedOps.operations.isEmpty then buildStorageTransaction id metadata inner.nodes
  else buildStorageTransactionFromOps id metadata inner.nodes inner.unflushedOps.operations

/-- Drop stored operations from the head of the unflushed queue. -/
def markDurableOperationsFlushed (inner : Inner σ) (ops : List Operation) : Inner σ :=
  if ops.isEmpty then inner
  else if inner.unflushedOps.operations.take ops.length = ops then
    { inner with unflushedOps := inner.unflushedOps.drainPrefix ops.length }
  else inner

/-- Forget overlay entries of records that were stored unchanged. -/
def clearFlushedRecordOverlay (inner : Inner σ) (tx : StorageTransaction) : Inner σ :=
  tx.nodes.toList.foldl
    (fun inner entry =>
      if isRecordNodeId entry.1 && inner.nodes[entry.1]? == some entry.2 then
        match inner.recordOverlayNodeKeys[entry.1]? with
        | some key =>
          { inner with
            recordOverlayNodeKeys := inner.recordOverlayNodeKeys.erase entry.1
            recordOverlay := inner.recordOverlay.erase key }
        | none => inner
      else inner)
    inner

/-- `mark_storage_transaction_flushed`. -/
def markStorageTransactionFlushed (inner : Inner σ) (tx : StorageTransaction) : Inner σ :=
  let inner := inner.markDurableOperationsFlushed tx.journalOps
  { inner with nextStorageTxId := max inner.nextStorageTxId (txSucc tx.id)
    }.clearFlushedRecordOverlay tx

end Inner

variable {σ : Type} [IncrementalStore σ]

/-- `persist_if_needed`, with at most an incremental store attached. -/
def persistIfNeeded : Call σ Unit := fun inner =>
  match inner.storageEngine with
  | none => (.ok (), inner.markDurableOperationsFlushed inner.unflushedOps.operations)
  | some engine =>
    let tx := inner.storageTransaction
    match IncrementalStore.applyTransaction tx engine with
    | (.ok _, engine) =>
      (.ok (), { inner with storageEngine := some engine }.markStorageTransactionFlushed tx)
    | (.error e, engine) => (.error e, { inner with storageEngine := some engine })

/-- Forgetting overlay entries changes the overlay only. -/
theorem Inner.clearFlushedRecordOverlay_eq {σ : Type} (inner : Inner σ) (tx : StorageTransaction) :
    ∃ overlay keys, inner.clearFlushedRecordOverlay tx =
      { inner with recordOverlay := overlay, recordOverlayNodeKeys := keys } := by
  rw [clearFlushedRecordOverlay]
  refine List.foldlRecOn (motive := fun t : Inner σ => ∃ overlay keys, t =
    { inner with recordOverlay := overlay, recordOverlayNodeKeys := keys }) _ _ ⟨_, _, rfl⟩ ?_
  rintro t ⟨overlay, keys, rfl⟩ entry -
  split
  · split <;> exact ⟨_, _, rfl⟩
  · exact ⟨_, _, rfl⟩

/-- Persisting changes the unflushed queue, the store, the next id and the overlay only. -/
theorem persistIfNeeded_eq (inner : Inner σ) :
    ∃ unflushed engine id overlay keys, (persistIfNeeded inner).2 =
      { inner with
        unflushedOps := unflushed
        storageEngine := engine
        nextStorageTxId := id
        recordOverlay := overlay
        recordOverlayNodeKeys := keys } := by
  have hmark : ∀ (inner : Inner σ) ops, ∃ unflushed,
      inner.markDurableOperationsFlushed ops = { inner with unflushedOps := unflushed } := by
    intro inner ops
    rw [Inner.markDurableOperationsFlushed]
    repeat' split
    all_goals exact ⟨_, rfl⟩
  rw [persistIfNeeded]
  split
  · obtain ⟨unflushed, hqueue⟩ := hmark inner inner.unflushedOps.operations
    exact ⟨unflushed, _, _, _, _, hqueue⟩
  · dsimp only
    split
    · rename_i engine _
      obtain ⟨unflushed, hqueue⟩ := hmark { inner with storageEngine := some engine }
        inner.storageTransaction.journalOps
      rw [Inner.markStorageTransactionFlushed, hqueue]
      obtain ⟨overlay, keys, hclear⟩ := Inner.clearFlushedRecordOverlay_eq
        { inner with
          storageEngine := some engine
          unflushedOps := unflushed
          nextStorageTxId := max inner.nextStorageTxId (txSucc inner.storageTransaction.id) }
        inner.storageTransaction
      exact ⟨unflushed, _, _, overlay, keys, hclear⟩
    · exact ⟨_, _, _, _, _, rfl⟩

/-- `put`. -/
def putJson (anchor : NodeId) (segments : List String) (value : JsonValue) : Call σ Unit := do
  putJsonInner anchor segments value
  persistIfNeeded

/-- `unset`. -/
def unset (anchor : NodeId) (segments : List String) : Call σ Unit := do
  unsetInner anchor segments
  persistIfNeeded

/-- `set`. -/
def setJson (anchor : NodeId) (segments : List String) (value : JsonValue) : Call σ NodeId := do
  let member ← setJsonInner anchor segments value
  persistIfNeeded
  pure member

/-- `remove`. -/
def removeJson (anchor : NodeId) (segments : List String) (value : JsonValue) : Call σ NodeId := do
  let member ← removeJsonInner anchor segments value
  persistIfNeeded
  pure member

/-- Apply remote operations and count the accepted ones. -/
def applyRemoteCounting : List Operation → Inner σ → ℕ × Inner σ
  | [], inner => (0, inner)
  | op :: ops, inner =>
    let step := inner.applyOperationInternal op .remote
    let rest := applyRemoteCounting ops step.2
    ((if step.1 then 1 else 0) + rest.1, rest.2)

/-- `apply_operations`. -/
def applyOperations (ops : List Operation) : Call σ ℕ := do
  let applied ← lift (applyRemoteCounting ops)
  if 0 < applied then persistIfNeeded
  pure applied

/-- `attach_incremental_store`; the answer says whether the store held data. -/
def attachIncrementalStore (store : σ) : Call σ Bool := do
  let metadata ← ofExcept (IncrementalStore.loadMetadata store)
  modify fun inner =>
    match metadata with
    | some metadata =>
      { inner with
        clock := metadata.clock
        pendingOps := .fromOperations metadata.pendingOps
        scopePolicies := metadata.scopePolicies
        unflushedOps := .empty
        nodes := ∅
        recordOverlay := ∅
        recordOverlayNodeKeys := ∅
        missingNodes := ∅
        relationshipIndex := .empty
        nextStorageTxId := max metadata.nextTxId 1
        storageEngine := some store }
    | none =>
      { inner with
        nextStorageTxId := 1
        missingNodes := ∅
        relationshipIndex := .empty
        storageEngine := some store }
  persistIfNeeded
  pure metadata.isSome

end Primadb
