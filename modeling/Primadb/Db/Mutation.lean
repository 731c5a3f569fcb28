import Primadb.Db.Ledger
import Primadb.Db.Rollback
import Primadb.Graph.Change

/-!
# Calls that change the graph

Local writes, remote operations, merged snapshots and merged node states, with the
changes each of them makes to the graph: the operations it applies, the states it
merges and the stored states it loads. After any such call, also a failed one, the
graph is the old one with these changes made in order.
-/

namespace Primadb

/-! ## Local writes and loads -/

/-- A local write call. -/
inductive LocalWrite where
  | chain (call : ChainWrite)
  | transaction (body : Program Unit)
  | recordBatch (fuel : ℕ) (batch : RecordBatch)

section Calls

variable {σ : Type} [RecordStore σ]

/-- A call on the graph state as a call on the database. -/
def onInner (call : Call σ Unit) : Effect (Database σ) PrimadbError Unit := fun db =>
  ((call db.inner).1, { db with inner := (call db.inner).2 })

/-- A local transaction without its answer. -/
def inTransaction (body : Program Unit) : Effect (Database σ) PrimadbError Unit := fun db =>
  ((runLocalTransaction body db).1.map fun _ => (), (runLocalTransaction body db).2)

private theorem chain_ledger (call : ChainWrite) (inner : Inner σ) :
    ∃ unflushed, (call.run inner).2.ledger =
      { (call.program.exec inner).2.ledger with unflushedOps := unflushed } := by
  rw [call.run_eq, Effect.bind_apply]
  rcases call.program.exec inner with ⟨e | _, t⟩
  · exact ⟨_, rfl⟩
  · exact persistIfNeeded_ledger t

/-- The stored state that loading a node merges into memory. -/
def Inner.toLoad (inner : Inner σ) (node : NodeId) : Option NodeState :=
  if inner.resident node || inner.missingNodes.contains node then none
  else
    match inner.storageEngine with
    | none => none
    | some engine =>
      match IncrementalStore.getNode engine node with
      | .ok found => found
      | .error _ => none

private theorem maybeLoadNode_ledger (inner : Inner σ) (node : NodeId) :
    (maybeLoadNode node inner).2.ledger =
      match inner.toLoad node with
      | none => inner.ledger
      | some stored => { inner.ledger with nodes := mergeNodeState inner.nodes stored } := by
  rw [maybeLoadNode, Inner.toLoad]
  cases inner.resident node with
  | true => rfl
  | false =>
    cases inner.missingNodes.contains node with
    | true => rfl
    | false =>
      cases inner.storageEngine with
      | none => rfl
      | some engine =>
        dsimp only
        cases IncrementalStore.getNode engine node with
        | error e => rfl
        | ok found =>
          cases found with
          | none => cases inner.nodes.contains node <;> rfl
          | some stored => rfl

variable [Blake3]

/-- The effect of a local write call. -/
def LocalWrite.run : LocalWrite → Effect (Database σ) PrimadbError Unit
  | .chain call => onInner call.run
  | .transaction body => inTransaction body
  | .recordBatch fuel batch => inTransaction (Program.recordBatch fuel batch)

end Calls

open Effect

/-- `observe_node_state`: the clock observes every marker of a node state. -/
def HybridClock.observeNodeState (clock : HybridClock) (state : NodeState) : HybridClock :=
  let observeAll (clock : HybridClock) (markers : List VersionMarker) : HybridClock :=
    markers.foldl (fun clock marker => clock.observe marker.revision) clock
  state.fields.valueList.foldl
    (fun clock field =>
      let clock := clock.observe field.version.revision
      match field.value with
      | .set set =>
        observeAll (observeAll (clock.observe set.baseline.revision) set.members.valueList)
          set.removed.valueList
      | .scalar _ | .bytes _ | .blob _ | .link _ => clock)
    (observeAll clock state.tombstones.valueList)

/-- `BTreeMap::extend` on scope policies: the new ones replace those of the same scope. -/
def extendPolicies (policies incoming : BTreeMap String ScopePolicy) :
    BTreeMap String ScopePolicy :=
  incoming.toList.foldl (fun policies entry => policies.insert entry.1 entry.2) policies

namespace Inner

variable {σ : Type}

/-- `rebuild_record_overlay`. -/
def rebuildRecordOverlay (inner : Inner σ) : Inner σ :=
  (inner.nodes.keys.filter isRecordNodeId).foldl refreshRecordOverlay
    { inner with recordOverlay := ∅, recordOverlayNodeKeys := ∅ }

/-- Observe and merge one node state of a snapshot. -/
def mergeState (inner : Inner σ) (state : NodeState) : Inner σ :=
  { inner with
    clock := inner.clock.observeNodeState state
    nodes := mergeNodeState inner.nodes state }

/-- `merge_snapshot_into_inner`. -/
def mergeSnapshotIntoInner (inner : Inner σ) (snapshot : DatabaseSnapshot) : Inner σ :=
  let inner := snapshot.nodes.valueList.foldl mergeState inner
  let inner :=
    { inner with
      scopePolicies := extendPolicies inner.scopePolicies snapshot.scopePolicies
      missingNodes := ∅ }
  inner.rebuildRelationshipIndex.rebuildRecordOverlay

/-- The state change of `apply_node_state`. -/
def applyNodeState (inner : Inner σ) (state : NodeState) : Inner σ :=
  let inner := (inner.mergeState state).refreshRecordOverlay state.id
  { inner with missingNodes := inner.missingNodes.erase state.id }.reindexNodeRelationships state.id

/-- A rebuild touches the overlay alone. -/
theorem rebuildRecordOverlay_eq (inner : Inner σ) :
    ∃ overlay keys, inner.rebuildRecordOverlay =
      { inner with recordOverlay := overlay, recordOverlayNodeKeys := keys } := by
  rw [rebuildRecordOverlay]
  refine List.foldlRecOn (motive := fun t : Inner σ => ∃ overlay keys, t =
    { inner with recordOverlay := overlay, recordOverlayNodeKeys := keys }) _ _ ⟨_, _, rfl⟩ ?_
  rintro t ⟨overlay, keys, rfl⟩ node -
  obtain ⟨overlay', keys', heq⟩ := refreshRecordOverlay_eq
    { inner with recordOverlay := overlay, recordOverlayNodeKeys := keys } node
  exact ⟨overlay', keys', heq⟩

theorem rebuildRelationshipIndex_eq (inner : Inner σ) :
    ∃ index, inner.rebuildRelationshipIndex = { inner with relationshipIndex := index } := by
  rw [rebuildRelationshipIndex]
  refine List.foldlRecOn (motive := fun t : Inner σ => ∃ index, t =
    { inner with relationshipIndex := index }) _ _ ⟨_, rfl⟩ ?_
  rintro t ⟨index, rfl⟩ node -
  exact ⟨_, rfl⟩

private theorem foldl_mergeState (inner : Inner σ) (states : List NodeState) :
    states.foldl mergeState inner =
      { inner with
        clock := states.foldl HybridClock.observeNodeState inner.clock
        nodes := states.foldl mergeNodeState inner.nodes } := by
  induction states generalizing inner with
  | nil => rfl
  | cons state states ih => rw [List.foldl_cons, ih]; rfl

/-- What merging a snapshot changes. -/
theorem mergeSnapshotIntoInner_eq (inner : Inner σ) (snapshot : DatabaseSnapshot) :
    ∃ overlay keys index, inner.mergeSnapshotIntoInner snapshot =
      { inner with
        clock := snapshot.nodes.valueList.foldl HybridClock.observeNodeState inner.clock
        nodes := snapshot.nodes.valueList.foldl mergeNodeState inner.nodes
        scopePolicies := extendPolicies inner.scopePolicies snapshot.scopePolicies
        missingNodes := ∅
        recordOverlay := overlay
        recordOverlayNodeKeys := keys
        relationshipIndex := index } := by
  rw [mergeSnapshotIntoInner, foldl_mergeState]
  dsimp only
  obtain ⟨index, hindex⟩ := rebuildRelationshipIndex_eq
    { inner with
      clock := snapshot.nodes.valueList.foldl HybridClock.observeNodeState inner.clock
      nodes := snapshot.nodes.valueList.foldl mergeNodeState inner.nodes
      scopePolicies := extendPolicies inner.scopePolicies snapshot.scopePolicies
      missingNodes := ∅ }
  rw [hindex]
  obtain ⟨overlay, keys, hoverlay⟩ := rebuildRecordOverlay_eq
    { inner with
      clock := snapshot.nodes.valueList.foldl HybridClock.observeNodeState inner.clock
      nodes := snapshot.nodes.valueList.foldl mergeNodeState inner.nodes
      scopePolicies := extendPolicies inner.scopePolicies snapshot.scopePolicies
      missingNodes := ∅
      relationshipIndex := index }
  exact ⟨overlay, keys, index, hoverlay⟩

/-- Everything an applied node state does before it is persisted. -/
theorem applyNodeState_eq (inner : Inner σ) (state : NodeState) :
    ∃ overlay keys index, inner.applyNodeState state =
      { inner with
        clock := inner.clock.observeNodeState state
        nodes := mergeNodeState inner.nodes state
        missingNodes := inner.missingNodes.erase state.id
        recordOverlay := overlay
        recordOverlayNodeKeys := keys
        relationshipIndex := index } := by
  obtain ⟨overlay, keys, heq⟩ := refreshRecordOverlay_eq (inner.mergeState state) state.id
  rw [applyNodeState, heq]
  exact ⟨overlay, keys, _, rfl⟩

end Inner

/-- `ChangeImpact::full_refresh`. -/
def ChangeImpact.everything : ChangeImpact := ⟨true, true, [], false, []⟩

section Calls

variable {σ : Type} [RecordStore σ]

/-- `merge_snapshot`. -/
def mergeSnapshot (snapshot : DatabaseSnapshot) : Effect (Database σ) PrimadbError Unit := fun db =>
  finalizeChange .everything
    { db with inner := db.inner.mergeSnapshotIntoInner snapshot, scheduledNodeFetches := ∅ }

/-- The impact announced for a merged node state. -/
def nodeStateImpact (inner : Inner σ) (node : NodeId) : ChangeImpact where
  dataChanged := true
  fullRefresh := false
  touchedPaths := [node]
  recordsChanged := isRecordNodeId node
  touchedRecordKeys :=
    if isRecordNodeId node then (inner.nodes[node]?.bind recordKeyFromNodeState).toList else []

/-- `apply_node_state`; the answer says whether the node changed. -/
def applyNodeState (state : NodeState) : Effect (Database σ) PrimadbError Bool := fun db =>
  let inner := db.inner.applyNodeState state
  let changed := inner.nodes[state.id]? != db.inner.nodes[state.id]?
  let db :=
    { db with
      inner := inner, scheduledNodeFetches := db.scheduledNodeFetches.erase state.id }
  if changed then
    ((finalizeChange (nodeStateImpact inner state.id) db).1.map fun _ => true,
      (finalizeChange (nodeStateImpact inner state.id) db).2)
  else (.ok false, db)

end Calls

/-- A call that changes the graph. -/
inductive Mutation where
  | write (call : LocalWrite)
  | applyOperations (ops : List Operation)
  | mergeSnapshot (snapshot : DatabaseSnapshot)
  | applyNodeState (state : NodeState)

section Changes

variable {σ : Type} [RecordStore σ]

/-- The changes a command makes to the graph: the operation it applies, unless the pending queue
is full, or the stored state it loads. -/
def Command.changes : Command → Inner σ → List GraphChange
  | .apply action, inner =>
    if inner.ledger.hasRoom then [.operation (inner.issue action.nspace action).1] else []
  | .load node, inner | .tryLoad node, inner => ((inner.toLoad node).map .load).toList
  | _, _ => []

/-- The changes a program makes outside a transaction. -/
def Program.changes {α : Type} (program : Program α) (inner : Inner σ) : List GraphChange :=
  program.notes Command.exec Command.changes inner

/-- The changes a program makes inside a transaction. -/
def Session.changes {α : Type} (program : Program α) (s : Session σ) : List GraphChange :=
  program.notes Session.exec (fun c s => c.changes s.inner) s

/-- The changes a transaction leaves behind: none when its body fails. -/
def Database.transactionChanges {α : Type} (db : Database σ) (body : Program α) :
    List GraphChange :=
  match (body.run Session.exec (Session.start db.inner db.scheduledNodeFetches)).1 with
  | .ok _ => Session.changes body (Session.start db.inner db.scheduledNodeFetches)
  | .error _ => []

variable [Blake3]

namespace Mutation

/-- The effect of a call. -/
def run : Mutation → Effect (Database σ) PrimadbError Unit
  | .write call => call.run
  | .applyOperations ops => onInner do
    let _ ← Primadb.applyOperations ops
    pure ()
  | .mergeSnapshot snapshot => Primadb.mergeSnapshot snapshot
  | .applyNodeState state => do
    let _ ← Primadb.applyNodeState state
    pure ()

/-- The changes a call makes to the graph. -/
def changes (db : Database σ) : Mutation → List GraphChange
  | .write (.chain call) => call.program.changes db.inner
  | .write (.transaction body) => db.transactionChanges body
  | .write (.recordBatch fuel batch) => db.transactionChanges (Program.recordBatch fuel batch)
  | .applyOperations ops =>
    (ops.filter db.inner.remoteOperationAllowed).map .operation
  | .mergeSnapshot snapshot => snapshot.nodes.valueList.map .merge
  | .applyNodeState state => [.merge state]

end Mutation

/-- The database after several calls, whatever their results. -/
def Database.runMutations (db : Database σ) (calls : List Mutation) : Database σ :=
  calls.foldl (fun db call => (call.run db).2) db

/-- The changes several calls make to the graph. -/
def Database.changes : Database σ → List Mutation → List GraphChange
  | _, [] => []
  | db, call :: calls => call.changes db ++ Database.changes (call.run db).2 calls

end Changes

/-! ## Failed transactions -/

namespace Session

variable {σ : Type}

/-- The journal holds the old state of every node that may have changed. -/
def Journals (old : BTreeMap NodeId NodeState) (s : Session σ) : Prop :=
  Recorded s.journal.nodes (fun n : NodeId => old[n]?) (fun n : NodeId => s.inner.nodes[n]?)

namespace Journals

variable {old : BTreeMap NodeId NodeState} {s t : Session σ}

private theorem congr (h : s.Journals old) (hjournal : t.journal.nodes = s.journal.nodes)
    (hnodes : t.inner.nodes = s.inner.nodes) : t.Journals old := by
  rw [Journals, hjournal, hnodes]
  exact h

private theorem journalNode (h : s.Journals old) (node : NodeId) :
    (s.journalNode node).Journals old := by
  rw [journalNode_eq]
  exact h.note node

private theorem change (h : s.Journals old) (node : NodeId) (nodes : BTreeMap NodeId NodeState)
    (hnodes : ∀ n : NodeId, n ≠ node → nodes[n]? = s.inner.nodes[n]?)
    (hjournal : t.journal.nodes = (s.journalNode node).journal.nodes)
    (ht : t.inner.nodes = nodes) : t.Journals old := by
  have hj := h.journalNode node
  rw [Journals, hjournal, ht]
  refine Recorded.change hj fun k hk => ?_
  rw [journalNode_inner]
  refine hnodes k fun he => ?_
  subst he
  rw [journalNode_eq, contains_noteOnce] at hk
  simp at hk

private theorem flush (h : s.Journals old) : s.flushPendingRelationshipIndex.Journals old := by
  rw [flushPendingRelationshipIndex]
  have hstart : Journals old { s with journal.relationshipIndexPending := ∅ } := h
  refine List.foldlRecOn (motive := fun t : Session σ => t.Journals old) _ _ hstart ?_
  intro t ht node _
  exact (ht.journalNode node).congr rfl rfl

/-- Journalling a missing node notes nothing about nodes. -/
theorem journalMissingNode_nodes (s : Session σ) (node : NodeId) :
    (s.journalMissingNode node).journal.nodes = s.journal.nodes := by
  rw [journalMissingNode_eq]

private theorem ensureNode (h : s.Journals old) (node : NodeId) :
    (s.ensureNode node).Journals old := by
  refine h.change node (s.inner.nodes.insert node (nodeEntry s.inner.nodes node))
    (fun n hn => by rw [BTreeMap.get_insert, if_neg fun he => hn he.symm]) ?_ ?_
  · rw [Session.ensureNode, journalMissingNode_nodes]
  · simp only [Session.ensureNode, Inner.ensureNode, journalMissingNode_inner, journalNode_inner]

private theorem applyOperationInternal (h : s.Journals old) (op : Operation) :
    (s.applyOperationInternal op).2.Journals old := by
  rw [Session.applyOperationInternal]
  split
  · have hclock : Journals old { s with inner.clock := s.inner.clock.observe op.revision } := h
    refine hclock.change op.action.node (applyToNodes s.inner.nodes op).1
      (fun n hn => by rw [applyToNodes, BTreeMap.get_insert, if_neg fun he => hn he.symm]) ?_ ?_
    · dsimp only
      split <;> rfl
    · simp only [journalNode_inner]
      split
      · obtain ⟨_, _, hoverlay⟩ := Inner.refreshRecordOverlay_eq _ (operationSourceNode op)
        exact congrArg Inner.nodes hoverlay
      · rfl
  · exact h

/-- Restoring from a sufficient journal gives back the old nodes. -/
theorem restore_nodes (h : s.Journals old) : s.restore.1.nodes = old := by
  have hrestored : s.restoreState.nodes = old := by
    refine Std.ExtTreeMap.ext_getElem? fun n => ?_
    refine Recorded.restore (fun (nodes : BTreeMap NodeId NodeState) n => nodes[n]?) restoreNode
      ?_ h n
    intro nodes k v a
    cases v <;> simp [restoreNode]
  rw [← hrestored, Session.restore]
  exact List.foldlRecOn (motive := fun t : Inner σ => t.nodes = s.restoreState.nodes) _ _ rfl
    fun t ht node _ => ht

variable [RecordStore σ]

private theorem load (h : s.Journals old) (hstore : s.inner.KeyedStore)
    (node : NodeId) : (Session.load node s).2.Journals old := by
  rw [Session.load]
  split
  · exact h
  split
  · exact h
  split
  · exact h
  rename_i engine hengine
  split
  · exact h
  · rename_i state hstate
    have hid : state.id = node := hstore engine node state hengine hstate
    refine h.change node (mergeNodeState s.inner.nodes state) (fun n hn => ?_) ?_ ?_
    · rw [mergeNodeState, BTreeMap.get_insert, if_neg]
      exact fun he => hn (he.symm.trans hid)
    · simp only [requestReindexNodeRelationships, journalMissingNode_nodes]
    · simp only [requestReindexNodeRelationships, journalMissingNode_inner, journalNode_inner]
  · split
    · exact h
    · exact h.congr (journalMissingNode_nodes s node) (by simp only [journalMissingNode_inner])

/-- Every command keeps the journal sufficient. -/
theorem exec (h : s.Journals old) (hstore : s.inner.KeyedStore) (c : Command) :
    (Session.exec c s).2.Journals old := by
  cases c with
  | load node => exact h.load hstore node
  | tryLoad node => exact h.load hstore node
  | ensure node => exact h.ensureNode node
  | apply action =>
    have hissue : Journals old { s with inner := (s.inner.issue action.nspace action).2 } := h
    exact hissue.applyOperationInternal _
  | edges node => exact h.flush
  | nodeId hint => exact h
  | authorize | field | state | overlay | storedRecords => exact h

end Journals

/-- A transaction body that fails leaves no trace in the nodes. -/
theorem restore_run_nodes [RecordStore σ] (inner : Inner σ) (fetches : BTreeSet NodeId)
    (hstore : inner.KeyedStore) {α : Type} (program : Program α) :
    (program.run Session.exec (Session.start inner fetches)).2.restore.1.nodes = inner.nodes := by
  have hrun := Script.preserves (I := fun s : Session σ =>
      s.inner.storageEngine = inner.storageEngine ∧ s.Journals inner.nodes)
    (fun c s hs => ⟨(exec_step (hstore.congr hs.1) c).2.trans hs.1,
      hs.2.exec (hstore.congr hs.1) c⟩) program
    (show (Session.start inner fetches).inner.storageEngine = inner.storageEngine ∧
      (Session.start inner fetches).Journals inner.nodes from ⟨rfl, Recorded.start⟩)
  exact hrun.2.restore_nodes

end Session

/-! ## The graph after a call -/

/-- An operation acts on slots as a change. -/
theorem slotAt_operation (nodes : BTreeMap NodeId NodeState) (op : Operation) :
    slotAt (applyToNodes nodes op).1 = (GraphChange.operation op).act (slotAt nodes) := by
  funext n f
  exact slotAt_applyToNodes nodes op n f

private theorem slotAt_merge (nodes : BTreeMap NodeId NodeState) (state : NodeState) :
    slotAt (mergeNodeState nodes state) = (GraphChange.merge state).act (slotAt nodes) := by
  funext n f
  exact slotAt_mergeNodeState nodes state n f

private theorem slotAt_merges (nodes : BTreeMap NodeId NodeState) (states : List NodeState) :
    slotAt (states.foldl mergeNodeState nodes) =
      (states.map GraphChange.merge).foldl GraphChange.act (slotAt nodes) := by
  induction states generalizing nodes with
  | nil => rfl
  | cons state states ih => rw [List.foldl_cons, ih, slotAt_merge]; rfl

private theorem slotAt_ensure (nodes : BTreeMap NodeId NodeState) (node : NodeId) :
    slotAt (nodes.insert node (nodeEntry nodes node)) = slotAt nodes := by
  funext n f
  rw [slotAt_insert, nodeEntry_slot]
  split
  · rename_i heq
    rw [heq]
  · rfl

section Graph

variable {σ : Type}

private theorem Inner.applyLocal_slots (inner : Inner σ) (nspace : String)
    (action : OperationAction) :
    slotAt (inner.applyLocal nspace action).nodes =
      (if inner.ledger.hasRoom then [GraphChange.operation (inner.issue nspace action).1]
        else []).foldl GraphChange.act (slotAt inner.nodes) := by
  rw [applyLocal, applyOperationInternal]
  have hroom : (inner.issue nspace action).2.admits (inner.issue nspace action).1 .local =
      inner.ledger.hasRoom := rfl
  rw [hroom]
  split
  · rw [applyAdmitted_nodes]
    exact slotAt_operation _ _
  · rfl

/-- A remote operation acts on the graph when the policies admit it. -/
theorem Inner.applyRemote_slots (inner : Inner σ) (op : Operation) :
    slotAt (inner.applyOperationInternal op .remote).2.nodes =
      (if inner.remoteOperationAllowed op then [GraphChange.operation op]
        else []).foldl GraphChange.act (slotAt inner.nodes) := by
  rw [applyOperationInternal, admits]
  split
  · rw [applyAdmitted_nodes]
    exact slotAt_operation _ _
  · rfl

variable [RecordStore σ]

private theorem maybeLoadNode_slots (inner : Inner σ) (node : NodeId) :
    slotAt (maybeLoadNode node inner).2.nodes =
      ((inner.toLoad node).map GraphChange.load).toList.foldl GraphChange.act
        (slotAt inner.nodes) := by
  have hledger := congrArg Ledger.nodes (maybeLoadNode_ledger inner node)
  cases hload : inner.toLoad node with
  | none =>
    rw [hload] at hledger
    exact congrArg slotAt hledger
  | some stored =>
    rw [hload] at hledger
    exact (congrArg slotAt hledger).trans (slotAt_merge inner.nodes stored)

/-- The nodes after a command, in a transaction or not. -/
def Command.nodesAfter (inner : Inner σ) : Command → BTreeMap NodeId NodeState
  | .apply action => (inner.applyLocal action.nspace action).nodes
  | .load node | .tryLoad node => (maybeLoadNode node inner).2.nodes
  | .ensure node => (inner.ensureNode node).nodes
  | _ => inner.nodes

/-- The nodes after a command outside a transaction. -/
theorem Command.exec_nodes (inner : Inner σ) (c : Command) :
    (c.exec inner).2.nodes = c.nodesAfter inner := by
  cases c with
  | authorize anchor segments =>
    rw [Command.exec, ensureCanonicalWriteAllowed_state]
    rfl
  | _ => rfl

/-- The nodes after a command inside a transaction. -/
theorem Session.exec_nodes (s : Session σ) (c : Command) :
    (Session.exec c s).2.inner.nodes = c.nodesAfter s.inner := by
  obtain ⟨index, heq⟩ := Session.exec_inner c s
  rw [heq]
  exact c.exec_nodes s.inner

private theorem Command.nodesAfter_slots (inner : Inner σ) (c : Command) :
    slotAt (c.nodesAfter inner) = (c.changes inner).foldl GraphChange.act (slotAt inner.nodes) := by
  cases c with
  | load node => exact maybeLoadNode_slots inner node
  | tryLoad node => exact maybeLoadNode_slots inner node
  | ensure node => exact slotAt_ensure inner.nodes node
  | apply action => exact inner.applyLocal_slots action.nspace action
  | authorize | nodeId | field | state | edges | overlay | storedRecords => rfl

private theorem Command.exec_slots (inner : Inner σ) (c : Command) :
    slotAt (c.exec inner).2.nodes = (c.changes inner).foldl GraphChange.act (slotAt inner.nodes) :=
  (congrArg slotAt (c.exec_nodes inner)).trans (c.nodesAfter_slots inner)

/-- A command inside a transaction makes the same changes. -/
theorem Session.exec_slots (s : Session σ) (c : Command) :
    slotAt (Session.exec c s).2.inner.nodes =
      (c.changes s.inner).foldl GraphChange.act (slotAt s.inner.nodes) :=
  (congrArg slotAt (s.exec_nodes c)).trans (c.nodesAfter_slots s.inner)

/-- A program outside a transaction makes its changes. -/
theorem Program.exec_slots {α : Type} (program : Program α) (inner : Inner σ) :
    slotAt (program.exec inner).2.nodes =
      (program.changes inner).foldl GraphChange.act (slotAt inner.nodes) := by
  refine Script.notes_invariant Command.exec Command.changes
    (fun s log => slotAt s.nodes = log.foldl GraphChange.act (slotAt inner.nodes))
    (fun c s log hs => ?_) program (s := inner) (l := []) rfl
  rw [Command.exec_slots, hs, List.foldl_append]

/-- A program inside a transaction makes its changes. -/
theorem Session.run_slots {α : Type} (program : Program α) (s : Session σ) :
    slotAt (program.run Session.exec s).2.inner.nodes =
      (Session.changes program s).foldl GraphChange.act (slotAt s.inner.nodes) := by
  refine Script.notes_invariant Session.exec (fun c (s : Session σ) => c.changes s.inner)
    (fun t log => slotAt t.inner.nodes = log.foldl GraphChange.act (slotAt s.inner.nodes))
    (fun c t log ht => ?_) program (s := s) (l := []) rfl
  rw [Session.exec_slots, ht, List.foldl_append]

private theorem persistIfNeeded_nodes (inner : Inner σ) :
    (persistIfNeeded inner).2.nodes = inner.nodes := by
  obtain ⟨unflushed, heq⟩ := persistIfNeeded_ledger inner
  exact congrArg Ledger.nodes heq

/-- Finishing a change persists the state. -/
theorem finalizeChange_inner (impact : ChangeImpact) (db : Database σ) :
    (finalizeChange impact db).2.inner = (persistIfNeeded db.inner).2 := by
  rw [finalizeChange]
  rcases persistIfNeeded db.inner with ⟨e | _, done⟩ <;> rfl

private theorem finalizeChange_nodes (impact : ChangeImpact) (db : Database σ) :
    (finalizeChange impact db).2.inner.nodes = db.inner.nodes := by
  rw [finalizeChange_inner]
  exact persistIfNeeded_nodes db.inner

/-- The state is kept or persisted. -/
def Saved (before after : Inner σ) : Prop := after = before ∨ after = (persistIfNeeded before).2

private theorem Saved.nodes {before after : Inner σ} (h : Saved before after) :
    after.nodes = before.nodes := by
  rcases h with rfl | rfl
  · rfl
  · exact persistIfNeeded_nodes before

/-- Applying remote operations saves the state they lead to. -/
theorem applyOperations_saved (ops : List Operation) (inner : Inner σ) :
    Saved (applyRemoteCounting ops inner).2 (applyOperations ops inner).2 := by
  rw [applyOperations, Effect.bind_ok (m := Effect.lift (applyRemoteCounting ops))
    (rfl : Effect.lift (applyRemoteCounting ops) inner = _)]
  split
  · right
    rw [Effect.bind_apply]
    rcases persistIfNeeded (applyRemoteCounting ops inner).2 with ⟨e | _, done⟩ <;> rfl
  · exact .inl rfl

/-- Applying a node state saves the state it leads to. -/
theorem applyNodeState_saved (state : NodeState) (db : Database σ) :
    Saved (db.inner.applyNodeState state) (applyNodeState state db).2.inner := by
  simp only [applyNodeState]
  split
  · exact .inr (finalizeChange_inner _ _)
  · exact .inl rfl

omit [RecordStore σ] in
/-- A failed transaction writes the journal back. -/
theorem Session.restore_eq (s : Session σ) :
    ∃ index, s.restore.1 = { s.restoreState with
      relationshipIndex := index
      recordOverlay := s.journal.recordOverlay
      recordOverlayNodeKeys := s.journal.recordOverlayNodeKeys } := by
  obtain ⟨index, heq⟩ :=
    s.restoreState.foldl_reindex_eq s.journal.relationshipIndexSources.toList
  exact ⟨index, by rw [restore, heq]⟩

/-- The state after a transaction: a body that succeeds is committed and saved, one that fails is
taken back. -/
theorem inTransaction_inner (body : Program Unit) (db : Database σ) :
    (∃ value s, body.run Session.exec (Session.start db.inner db.scheduledNodeFetches) =
        (.ok value, s) ∧ Saved (db.committed s).inner (inTransaction body db).2.inner) ∨
      ∃ e s, body.run Session.exec (Session.start db.inner db.scheduledNodeFetches) =
        (.error e, s) ∧ (inTransaction body db).2.inner = s.restore.1 := by
  rw [inTransaction, runLocalTransaction]
  rcases body.run Session.exec (Session.start db.inner db.scheduledNodeFetches) with
    ⟨e | value, s⟩
  · exact .inr ⟨e, s, rfl, rfl⟩
  · refine .inl ⟨value, s, rfl, ?_⟩
    dsimp only
    split
    · exact .inl rfl
    · have hfinal := finalizeChange_inner (ChangeImpact.fromOps
        (s.announced db.inner.unflushedOps.len) (db.committed s).inner.nodes) (db.committed s)
      rcases hchange : finalizeChange (ChangeImpact.fromOps
        (s.announced db.inner.unflushedOps.len) (db.committed s).inner.nodes) (db.committed s) with
        ⟨e | _, done⟩ <;> rw [hchange] at hfinal <;> exact .inr hfinal

/-- The nodes after a transaction: those its body reached, or the old ones. -/
theorem inTransaction_nodes (body : Program Unit) {db : Database σ}
    (hstore : db.inner.KeyedStore) :
    (inTransaction body db).2.inner.nodes =
      match body.run Session.exec (Session.start db.inner db.scheduledNodeFetches) with
      | (.ok _, s) => s.inner.nodes
      | (.error _, _) => db.inner.nodes := by
  have hrestore := Session.restore_run_nodes db.inner db.scheduledNodeFetches hstore body
  rcases inTransaction_inner body db with ⟨value, s, hrun, hsaved⟩ | ⟨e, s, hrun, heq⟩
  · rw [hrun, hsaved.nodes]
    exact congrArg Ledger.nodes (db.committed_ledger s)
  · rw [hrun] at hrestore
    rw [hrun, heq]
    exact hrestore

private theorem inTransaction_slots (body : Program Unit) {db : Database σ}
    (hstore : db.inner.KeyedStore) :
    slotAt (inTransaction body db).2.inner.nodes =
      (db.transactionChanges body).foldl GraphChange.act (slotAt db.inner.nodes) := by
  have hslots := Session.run_slots body (Session.start db.inner db.scheduledNodeFetches)
  rw [inTransaction_nodes body hstore, Database.transactionChanges]
  rcases hrun : body.run Session.exec (Session.start db.inner db.scheduledNodeFetches) with
    ⟨e | value, s⟩
  · rfl
  · rw [hrun] at hslots
    exact hslots

omit [RecordStore σ] in
private theorem applyRemoteCounting_slots (ops : List Operation) (inner : Inner σ) :
    slotAt (applyRemoteCounting ops inner).2.nodes =
      ((ops.filter inner.remoteOperationAllowed).map GraphChange.operation).foldl GraphChange.act
        (slotAt inner.nodes) := by
  induction ops generalizing inner with
  | nil => rfl
  | cons op ops ih =>
    have hpolicies : (inner.applyOperationInternal op .remote).2.remoteOperationAllowed =
        inner.remoteOperationAllowed := by
      funext other
      simp only [Inner.remoteOperationAllowed, (inner.applyOperationInternal_frame op .remote).2.1]
    have hstep := inner.applyRemote_slots op
    rw [applyRemoteCounting]
    dsimp only
    rw [ih, hpolicies, hstep]
    cases hallowed : inner.remoteOperationAllowed op with
    | true => simp [hallowed]
    | false => simp [hallowed]

variable [Blake3]

theorem Mutation.run_applyOperations (ops : List Operation) (db : Database σ) :
    ((Mutation.applyOperations ops).run db).2.inner = (Primadb.applyOperations ops db.inner).2 := by
  rw [Mutation.run, onInner, Effect.bind_apply]
  rcases Primadb.applyOperations ops db.inner with ⟨e | count, done⟩ <;> rfl

theorem Mutation.run_applyNodeState (state : NodeState) (db : Database σ) :
    ((Mutation.applyNodeState state).run db).2.inner =
      (Primadb.applyNodeState state db).2.inner := by
  rw [Mutation.run, Effect.bind_apply]
  rcases Primadb.applyNodeState state db with ⟨e | changed, done⟩ <;> rfl

/-- Every call, also a failed one, makes its changes and no others. -/
theorem Mutation.run_slots (call : Mutation) {db : Database σ} (hstore : db.inner.KeyedStore) :
    slotAt (call.run db).2.inner.nodes =
      (call.changes db).foldl GraphChange.act (slotAt db.inner.nodes) := by
  cases call with
  | write call =>
    cases call with
    | chain call =>
      obtain ⟨unflushed, heq⟩ := chain_ledger call db.inner
      have hnodes : (call.run db.inner).2.nodes = (call.program.exec db.inner).2.nodes :=
        congrArg Ledger.nodes heq
      exact (congrArg slotAt hnodes).trans (call.program.exec_slots db.inner)
    | transaction body => exact inTransaction_slots body hstore
    | recordBatch fuel batch => exact inTransaction_slots _ hstore
  | applyOperations ops =>
    rw [Mutation.run_applyOperations, (applyOperations_saved ops db.inner).nodes]
    exact applyRemoteCounting_slots ops db.inner
  | mergeSnapshot snapshot =>
    obtain ⟨overlay, keys, index, heq⟩ := db.inner.mergeSnapshotIntoInner_eq snapshot
    rw [Mutation.run, Primadb.mergeSnapshot, finalizeChange_nodes, heq]
    exact slotAt_merges db.inner.nodes snapshot.nodes.valueList
  | applyNodeState state =>
    obtain ⟨overlay, keys, index, heq⟩ := db.inner.applyNodeState_eq state
    rw [Mutation.run_applyNodeState, (applyNodeState_saved state db).nodes, heq]
    exact slotAt_merge db.inner.nodes state

/-- In every state of the run the store returns nodes under their own id. -/
def Database.KeyedAlong : Database σ → List Mutation → Prop
  | db, [] => db.inner.KeyedStore
  | db, call :: calls => db.inner.KeyedStore ∧ Database.KeyedAlong (call.run db).2 calls

/-- A run of calls acts on slots as its changes do. -/
theorem Database.runMutations_slots {db : Database σ} {calls : List Mutation}
    (hstore : db.KeyedAlong calls) :
    slotAt (db.runMutations calls).inner.nodes =
      (db.changes calls).foldl GraphChange.act (slotAt db.inner.nodes) := by
  induction calls generalizing db with
  | nil => rfl
  | cons call calls ih =>
    obtain ⟨hnow, hlater⟩ := hstore
    have hrest := ih hlater
    rw [Database.changes, List.foldl_append, ← call.run_slots hnow]
    exact hrest

end Graph

end Primadb
