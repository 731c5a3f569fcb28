import Primadb.Db.Command
import Primadb.Db.Persist

/-!
# Local transactions

Inside a transaction every change of the state is preceded by an entry in an undo
journal, and the relationship index is brought up to date only when it is read or
when the transaction commits. A transaction body that fails is undone from the
journal; one that succeeds announces the operations behind the old end of the
unflushed queue and persists when there are any.
-/

namespace Primadb

open Effect

/-- How to take back the changes of an operation queue. -/
structure OperationQueueUndo where
  /-- Length of the queue at the start. -/
  initialLen : ℕ
  /-- Operations that were replaced, by position. -/
  replaced : BTreeMap ℕ Operation

namespace OperationQueueUndo

/-- Note the operation that a push would replace. -/
def note (undo : OperationQueueUndo) (queue : CompactedOperations) (op : Operation) :
    OperationQueueUndo :=
  match queue.indices[OperationCompactionKey.fromOperation op]? with
  | none => undo
  | some index =>
    if undo.replaced.contains index then undo
    else
      match queue.operations[index]? with
      | some existing => { undo with replaced := undo.replaced.insert index existing }
      | none => undo

/-- `OperationQueueUndo::restore`. -/
def restore (undo : OperationQueueUndo) (queue : CompactedOperations) : CompactedOperations :=
  CompactedOperations.rebuildIndices
    { queue with
      operations := undo.replaced.toList.foldl
        (fun operations entry => operations.set entry.1 entry.2)
        (queue.operations.take undo.initialLen) }

end OperationQueueUndo

/-- The undo journal of a transaction. -/
structure TransactionJournal where
  /-- The clock at the start. -/
  clock : HybridClock
  /-- Nodes before their first change. -/
  nodes : BTreeMap NodeId (Option NodeState)
  /-- The record overlay at the start. -/
  recordOverlay : BTreeMap String (Option RecordEntry)
  /-- Its key map at the start. -/
  recordOverlayNodeKeys : BTreeMap NodeId String
  pendingOps : OperationQueueUndo
  unflushedOps : OperationQueueUndo
  /-- Whether nodes were known to be missing before the first change. -/
  missingNodes : BTreeMap NodeId Bool
  /-- Whether fetches were scheduled before the first change. -/
  scheduledNodeFetches : BTreeMap NodeId Bool
  /-- Nodes whose edges may have changed. -/
  relationshipIndexSources : BTreeSet NodeId
  /-- Nodes whose edges are not yet reindexed. -/
  relationshipIndexPending : BTreeSet NodeId

/-- The database state inside a transaction. -/
structure Session (σ : Type) where
  /-- The state. -/
  inner : Inner σ
  /-- Nodes whose fetch is scheduled. -/
  scheduledNodeFetches : BTreeSet NodeId
  /-- The undo journal. -/
  journal : TransactionJournal

/-- Put a node back into a set or take it out. -/
def restoreSetMembership (set : BTreeSet NodeId) (node : NodeId) (contained : Bool) :
    BTreeSet NodeId :=
  if contained then set.insert node else set.erase node

/-- Put the state of a node back or take the node out. -/
def restoreNode (nodes : BTreeMap NodeId NodeState) (node : NodeId) :
    Option NodeState → BTreeMap NodeId NodeState
  | some state => nodes.insert node state
  | none => nodes.erase node

namespace Session

variable {σ : Type}

/-- `TransactionJournal::begin`. -/
def start (inner : Inner σ) (scheduledNodeFetches : BTreeSet NodeId) : Session σ where
  inner := inner
  scheduledNodeFetches := scheduledNodeFetches
  journal :=
    { clock := inner.clock
      nodes := ∅
      recordOverlay := inner.recordOverlay
      recordOverlayNodeKeys := inner.recordOverlayNodeKeys
      pendingOps := ⟨inner.pendingOps.len, ∅⟩
      unflushedOps := ⟨inner.unflushedOps.len, ∅⟩
      missingNodes := ∅
      scheduledNodeFetches := ∅
      relationshipIndexSources := ∅
      relationshipIndexPending := ∅ }

/-- `journal_node`. -/
def journalNode (s : Session σ) (node : NodeId) : Session σ :=
  if s.journal.nodes.contains node then s
  else { s with journal.nodes := s.journal.nodes.insert node s.inner.nodes[node]? }

/-- `journal_missing_node`. -/
def journalMissingNode (s : Session σ) (node : NodeId) : Session σ :=
  if s.journal.missingNodes.contains node then s
  else
    { s with
      journal.missingNodes :=
        s.journal.missingNodes.insert node (s.inner.missingNodes.contains node) }

@[simp] theorem journalNode_inner (s : Session σ) (node : NodeId) :
    (s.journalNode node).inner = s.inner := by
  rw [journalNode]
  split <;> rfl

@[simp] theorem journalMissingNode_inner (s : Session σ) (node : NodeId) :
    (s.journalMissingNode node).inner = s.inner := by
  rw [journalMissingNode]
  split <;> rfl

/-- `request_reindex_node_relationships`. -/
def requestReindexNodeRelationships (s : Session σ) (node : NodeId) : Session σ :=
  { s with
    journal.relationshipIndexSources := s.journal.relationshipIndexSources.insert node
    journal.relationshipIndexPending := s.journal.relationshipIndexPending.insert node }

/-- `reindex_node_relationships`. -/
def reindexNodeRelationships (s : Session σ) (node : NodeId) : Session σ :=
  let s := s.journalNode node
  { s with inner := s.inner.reindexNodeRelationships node }

/-- `flush_pending_relationship_index`. -/
def flushPendingRelationshipIndex (s : Session σ) : Session σ :=
  s.journal.relationshipIndexPending.toList.foldl reindexNodeRelationships
    { s with journal.relationshipIndexPending := ∅ }

/-- `ensure_node`. -/
def ensureNode (s : Session σ) (node : NodeId) : Session σ :=
  let s := (s.journalNode node).journalMissingNode node
  { s with inner := s.inner.ensureNode node }

/-- The tail of an accepted local operation. -/
def accept (s : Session σ) (op : Operation) : Session σ :=
  let s := { s with inner := s.inner.refreshRecordOverlay (operationSourceNode op) }
  let s := s.requestReindexNodeRelationships (operationSourceNode op)
  let s := { s with journal.unflushedOps := s.journal.unflushedOps.note s.inner.unflushedOps op }
  let s := { s with inner.unflushedOps := s.inner.unflushedOps.push op }
  let s := { s with journal.pendingOps := s.journal.pendingOps.note s.inner.pendingOps op }
  { s with inner.pendingOps := s.inner.pendingOps.push op }

/-- `apply_operation_internal` with local origin. -/
def applyOperationInternal (s : Session σ) (op : Operation) : Bool × Session σ :=
  if s.inner.admits op .local then
    let s := { s with inner.clock := s.inner.clock.observe op.revision }
    let s := s.journalNode op.action.node
    let result := applyToNodes s.inner.nodes op
    let s := { s with inner.nodes := result.1 }
    if result.2 then (true, s.accept op) else (false, s)
  else (false, s)

/-- Issue an operation and apply it. -/
def applyLocal (s : Session σ) (action : OperationAction) : Session σ :=
  let issued := s.inner.issue action.nspace action
  ({ s with inner := issued.2 }.applyOperationInternal issued.1).2

/-- The state with clock, queues, nodes and missing nodes written back from the journal. -/
def restoreState (s : Session σ) : Inner σ :=
  { s.inner with
    clock := s.journal.clock
    pendingOps := s.journal.pendingOps.restore s.inner.pendingOps
    unflushedOps := s.journal.unflushedOps.restore s.inner.unflushedOps
    nodes := s.journal.nodes.toList.foldl
      (fun nodes entry => restoreNode nodes entry.1 entry.2) s.inner.nodes
    missingNodes := s.journal.missingNodes.toList.foldl
      (fun set entry => restoreSetMembership set entry.1 entry.2) s.inner.missingNodes }

/-- `TransactionJournal::restore`: the state after the transaction is undone. -/
def restore (s : Session σ) : Inner σ × BTreeSet NodeId :=
  ({ s.journal.relationshipIndexSources.toList.foldl Inner.reindexNodeRelationships
        s.restoreState with
      recordOverlay := s.journal.recordOverlay
      recordOverlayNodeKeys := s.journal.recordOverlayNodeKeys },
    s.journal.scheduledNodeFetches.toList.foldl
      (fun set entry => restoreSetMembership set entry.1 entry.2) s.scheduledNodeFetches)

/-- `maybe_load_node`. -/
def load [IncrementalStore σ] (node : NodeId) : Effect (Session σ) PrimadbError Bool := fun s =>
  if s.inner.resident node then (.ok true, s)
  else if s.inner.missingNodes.contains node then (.ok false, s)
  else
    match s.inner.storageEngine with
    | none => (.ok false, s)
    | some engine =>
      match IncrementalStore.getNode engine node with
      | .error e => (.error e, s)
      | .ok (some state) =>
        let s := s.journalNode node
        let s := { s with inner.nodes := mergeNodeState s.inner.nodes state }
        let s := s.journalMissingNode node
        let s := { s with inner.missingNodes := s.inner.missingNodes.erase node }
        (.ok true, s.requestReindexNodeRelationships node)
      | .ok none =>
        if s.inner.nodes.contains node then (.ok true, s)
        else
          let s := s.journalMissingNode node
          (.ok false, { s with inner.missingNodes := s.inner.missingNodes.insert node })

/-- The effect of a command inside a transaction. -/
def exec [RecordStore σ] : (c : Command) → Effect (Session σ) PrimadbError c.Answer
  | .authorize anchor segments => fun s =>
    ((ensureCanonicalWriteAllowed anchor segments s.inner).1, s)
  | .load node => load node
  | .tryLoad node => fun s => (.ok (), (load node s).2)
  | .field node name => gets fun s => s.inner.fieldValue node name
  | .state node => gets fun s => s.inner.nodes[node]?
  | .ensure node => modify (·.ensureNode node)
  | .nodeId hint => fun s =>
    (.ok (s.inner.nextNodeId hint).1, { s with inner := (s.inner.nextNodeId hint).2 })
  | .apply action => modify (·.applyLocal action)
  | .edges node => lift fun s =>
    let s := s.flushPendingRelationshipIndex
    (s.inner.relationshipIndex.edgesOf node, s)
  | .overlay => gets fun s => s.inner.recordOverlay
  | .storedRecords scan => fun s => (s.inner.storedRecords scan, s)

end Session

namespace Program

open Script (issue)

/-- The operation value that stores a record value. -/
def recordOperationValue : RecordValue → OperationValue
  | .json value => .scalar value
  | .bytes value => .bytes value
  | .blob reference => .blob reference

variable [Blake3]

/-- `put_record_inner`. -/
def putRecord (key : String) (value : RecordValue) : Program Unit := do
  apply (.setField (recordNodeId key) "key" (.scalar (.string key)))
  apply (.setField (recordNodeId key) "value" (recordOperationValue value))

/-- `delete_record_inner`. -/
def deleteRecord (key : String) : Program Unit := do
  apply (.setField (recordNodeId key) "key" (.scalar (.string key)))
  apply (.deleteField (recordNodeId key) "value")

/-- `record_entry_from_inner`. -/
def recordEntry (key : String) : Program (Option RecordEntry) := do
  let _ ← load (recordNodeId key)
  let found ← state (recordNodeId key)
  pure ((found.bind recordEntryFromNodeState).filter fun entry => entry.key = key)

/-- `assert_record_precondition`. -/
def assertRecordPrecondition : RecordPrecondition → Program Unit
  | .exists key => do
    let entry ← recordEntry key
    if entry.isNone then .fail (.transactionConflict ("record `" ++ key ++ "` must exist"))
  | .absent key => do
    let entry ← recordEntry key
    if entry.isSome then .fail (.transactionConflict ("record `" ++ key ++ "` must be absent"))
  | .value key value => do
    let entry ← recordEntry key
    if entry.map RecordEntry.value ≠ some value then
      .fail (.transactionConflict ("record `" ++ key ++ "` did not match the expected value"))

omit [Blake3] in
/-- `collect_record_entries_for_scan_page`: stored records under the overlay. -/
def recordEntriesPage (scan : RecordScan) (stored : List RecordEntry)
    (overlay : BTreeMap String (Option RecordEntry)) : List RecordEntry :=
  let entries := (stored.filter fun entry => scan.matchesKey entry.key).foldl
    (fun entries entry => entries.insert entry.key entry) (∅ : BTreeMap String RecordEntry)
  (overlay.toList.foldl
    (fun entries change =>
      if scan.matchesKey change.1 then
        match change.2 with
        | some entry => entries.insert entry.key entry
        | none => entries.erase change.1
      else entries)
    entries).values

omit [Blake3] in
/-- The page loop of `collect_record_entries_for_scan`; the fuel bounds the number of pages. -/
def recordEntriesPages (scan : RecordScan) (limit : ℕ) :
    ℕ → RecordScan → List RecordEntry → Program (List RecordEntry)
  | 0, _, stored => do
    let overlay ← issue Command.overlay
    pure (recordEntriesPage scan stored overlay)
  | fuel + 1, pageScan, stored => do
    let page ← issue (Command.storedRecords pageScan)
    let page := Option.getD (α := List RecordEntry) page []
    let overlay ← issue Command.overlay
    let merged := recordEntriesPage scan (stored ++ page) overlay
    match page.getLast? with
    | none => pure merged
    | some last =>
      if limit < merged.length ∨ page.length < txSucc limit then pure merged
      else
        recordEntriesPages scan limit fuel { pageScan with cursor := some last.key }
          (stored ++ page)

omit [Blake3] in
/-- `collect_record_entries_for_scan_locked`. -/
def recordEntriesForScan (fuel : ℕ) (scan : RecordScan) : Program (List RecordEntry) :=
  match scan.limit with
  | none => do
    let stored ← issue (Command.storedRecords scan)
    let overlay ← issue Command.overlay
    pure (recordEntriesPage scan (Option.getD (α := List RecordEntry) stored []) overlay)
  | some limit => recordEntriesPages scan limit fuel { scan with limit := some (txSucc limit) } []

/-- Delete records one after another. -/
def deleteRecords : List RecordEntry → Program Unit
  | [] => pure ()
  | entry :: entries => do
    deleteRecord entry.key
    deleteRecords entries

/-- Apply one record mutation. -/
def recordMutation (fuel : ℕ) : RecordMutation → Program Unit
  | .put key value => putRecord key value
  | .delete key => deleteRecord key
  | .deleteRange scan => do
    let entries ← recordEntriesForScan fuel scan
    deleteRecords entries

/-- The body of `apply_record_batch`. -/
def recordBatch (fuel : ℕ) (batch : RecordBatch) : Program Unit := do
  batch.preconditions.forM assertRecordPrecondition
  batch.mutations.forM (recordMutation fuel)

end Program

/-- `operation_is_record_op`. -/
def operationIsRecordOp (op : Operation) : Bool := isRecordNodeId op.action.node

/-- `operation_touched_record_key`. -/
def operationTouchedRecordKey (op : Operation) (nodes : BTreeMap NodeId NodeState) :
    Option String :=
  match op.action with
  | .setField node field (.scalar (.string key)) =>
    if isRecordNodeId node && field == "key" then some key
    else if isRecordNodeId node then nodes[node]?.bind recordKeyFromNodeState
    else none
  | action =>
    if isRecordNodeId action.node then nodes[action.node]?.bind recordKeyFromNodeState else none

/-- What a change announces. -/
structure ChangeImpact where
  dataChanged : Bool
  /-- Whether everything has to be read again. -/
  fullRefresh : Bool
  /-- Paths of the changed slots in order. -/
  touchedPaths : List String
  recordsChanged : Bool
  /-- Keys of the changed records in order; empty when they are not all known. -/
  touchedRecordKeys : List String
  deriving DecidableEq

namespace ChangeImpact

/-- `ChangeImpact::from_ops`. -/
def fromOps (ops : List Operation) (nodes : BTreeMap NodeId NodeState) : ChangeImpact where
  dataChanged := !ops.isEmpty
  fullRefresh := false
  touchedPaths := (ops.foldl (fun paths op => paths.insert (operationTouchedPath op))
    (∅ : BTreeSet String)).toList
  recordsChanged := ops.any operationIsRecordOp
  touchedRecordKeys :=
    let keys := (ops.filter operationIsRecordOp).map (operationTouchedRecordKey · nodes)
    if keys.all Option.isSome then
      (keys.foldl (fun set key => set.insert (key.getD "")) (∅ : BTreeSet String)).toList
    else []

/-- `ChangeImpact::is_empty`. -/
def isEmpty (impact : ChangeImpact) : Bool :=
  !impact.dataChanged && !impact.fullRefresh && impact.touchedPaths.isEmpty &&
    !impact.recordsChanged && impact.touchedRecordKeys.isEmpty

end ChangeImpact

/-- The event sent to change subscribers. -/
structure ChangeEvent where
  /-- Number of the change. -/
  revision : ℕ
  /-- Length of the pending queue. -/
  pendingOps : ℕ
  /-- What changed. -/
  impact : ChangeImpact
  deriving DecidableEq

/-- A database with what lies outside the graph state. -/
structure Database (σ : Type) where
  /-- The graph state. -/
  inner : Inner σ
  /-- Nodes whose fetch is scheduled. -/
  scheduledNodeFetches : BTreeSet NodeId
  /-- Number of the last change. -/
  changeRevision : ℕ
  /-- Events sent to change subscribers, oldest first. -/
  events : List ChangeEvent

/-- A database without data. -/
def freshDatabase : Database Empty := ⟨Inner.withReplicaId "r" ⟨fun _ => 0, 0⟩, ∅, 0, []⟩

section Run

variable {σ : Type} [RecordStore σ]

/-- `finalize_change` of a database without watchers: number the change, persist, and send its
event. `finalizeWatched` models it with watchers. -/
def finalizeChange (impact : ChangeImpact) : Effect (Database σ) PrimadbError Unit := fun db =>
  let event : ChangeEvent := ⟨txSucc db.changeRevision, db.inner.pendingOps.len, impact⟩
  match persistIfNeeded db.inner with
  | (.ok _, inner) =>
    (.ok (), { db with
      inner := inner, changeRevision := event.revision, events := db.events ++ [event] })
  | (.error e, inner) => (.error e, { db with inner := inner, changeRevision := event.revision })

/-- The operations a finished transaction announces: what lies behind the old end of the
unflushed queue. -/
def Session.announced (s : Session σ) (startLen : ℕ) : List Operation :=
  s.inner.unflushedOps.operations.drop startLen

/-- The database after a transaction body succeeded, before the change is finalized. -/
def Database.committed (db : Database σ) (s : Session σ) : Database σ :=
  let s := s.flushPendingRelationshipIndex
  { db with inner := s.inner, scheduledNodeFetches := s.scheduledNodeFetches }

/-- `run_local_transaction`; the answer carries the operation count. -/
def runLocalTransaction {α : Type} (program : Program α) :
    Effect (Database σ) PrimadbError (α × ℕ) := fun db =>
  match program.run Session.exec (Session.start db.inner db.scheduledNodeFetches) with
  | (.ok value, s) =>
    let ops := s.announced db.inner.unflushedOps.len
    let db := db.committed s
    let impact := ChangeImpact.fromOps ops db.inner.nodes
    if impact.isEmpty then (.ok (value, ops.length), db)
    else
      match finalizeChange impact db with
      | (.ok _, db) => (.ok (value, ops.length), db)
      | (.error e, db) => (.error e, db)
  | (.error e, s) =>
    (.error e, { db with inner := s.restore.1, scheduledNodeFetches := s.restore.2 })

end Run

end Primadb
