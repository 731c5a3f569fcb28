import Primadb.Core.Run
import Primadb.Db.Mutation
import Primadb.Db.PathWatch
import Primadb.Db.StoredScan

/-!
# The relationship index along runs

Outside a transaction the index is brought up to date with every node that changes; inside one
the changed nodes are put down and reindexed before the index is read and at the commit. Loaded
and merged snapshots rebuild it. Attaching a store resets the index, which is right when the nodes
are dropped as well and wrong when they stay.
-/

namespace Primadb

/-! ## Operations -/

private theorem graphEdges_insert_nodeEntry (nodes : BTreeMap NodeId NodeState) (node : NodeId) :
    graphEdges (nodes.insert node (nodeEntry nodes node)) = graphEdges nodes := by
  ext edge
  simp only [graphEdges, Set.mem_ofPred_eq, BTreeMap.get_insert]
  by_cases hsource : node = edge.source
  · rw [if_pos hsource, ← hsource]
    cases hnode : nodes[node]? with
    | none =>
      rw [nodeEntry, hnode]
      simp [NodeState.new, nodeEdges]
    | some state =>
      rw [nodeEntry, hnode]
      rfl
  · rw [if_neg hsource]

private theorem replaceEdges_graphEdges {nodes nodes' : BTreeMap NodeId NodeState} {node : NodeId}
    (h : ∀ n : NodeId, n ≠ node → nodes'[n]? = nodes[n]?) :
    replaceEdges (graphEdges nodes) node (graphEdges nodes') = graphEdges nodes' := by
  ext edge
  simp only [replaceEdges, Set.mem_ofPred_eq]
  split
  · exact Iff.rfl
  · rename_i hsource
    simp only [graphEdges, Set.mem_ofPred_eq, h edge.source hsource]

namespace Inner

variable {σ : Type} {inner : Inner σ}

/-- Applying an operation keeps the relationship index up to date. -/
theorem applyOperationInternal_mirrors
    (h : inner.relationshipIndex.Mirrors (graphEdges inner.nodes)) (op : Operation)
    (origin : OperationOrigin) :
    (inner.applyOperationInternal op origin).2.relationshipIndex.Mirrors
      (graphEdges (inner.applyOperationInternal op origin).2.nodes) := by
  rw [applyOperationInternal]
  split
  · rw [applyAdmitted]
    cases haccepted : (applyToNodes inner.nodes op).2 with
    | false =>
      have hmem : op.action.node ∈ inner.nodes := by
        by_contra habsent
        rw [applyToNodes_accepts_of_absent habsent] at haccepted
        cases haccepted
      simp only [haccepted, Bool.false_eq_true, if_false]
      rw [applyToNodes_refused hmem haccepted]
      exact h
    | true =>
      let changed : Inner σ := { inner with
        clock := inner.clock.observe op.revision, nodes := (applyToNodes inner.nodes op).1 }
      obtain ⟨overlay, keys, hrefresh⟩ := changed.refreshRecordOverlay_eq (operationSourceNode op)
      have hbefore : (changed.refreshRecordOverlay
          (operationSourceNode op)).relationshipIndex.Mirrors (graphEdges inner.nodes) := by
        rw [hrefresh]
        exact h
      have hindex := reindexNodeRelationships_mirrors hbefore (operationSourceNode op)
      have hnodes : (changed.refreshRecordOverlay (operationSourceNode op)).nodes =
          (applyToNodes inner.nodes op).1 := by rw [hrefresh]
      rw [hnodes, replaceEdges_graphEdges fun n hn => by
        rw [applyToNodes, BTreeMap.get_insert, if_neg fun he => hn he.symm]] at hindex
      have hgraph : ((changed.refreshRecordOverlay
          (operationSourceNode op)).reindexNodeRelationships (operationSourceNode op)).nodes =
            (applyToNodes inner.nodes op).1 := by
        rw [reindexNodeRelationships_eq, hnodes]
      rw [← hgraph] at hindex
      simp only [haccepted, if_true]
      cases origin <;> exact hindex
  · exact h

end Inner

/-! ## Calls outside a transaction -/

section Plain

variable {σ : Type} {inner : Inner σ}

/-- The relationship index holds exactly the edges of the nodes in memory. -/
def Inner.Mirrored (inner : Inner σ) : Prop :=
  inner.relationshipIndex.Mirrors (graphEdges inner.nodes)

namespace Inner.Mirrored

/-- Being mirrored is about nodes and index only. -/
theorem congr {other : Inner σ} (h : inner.Mirrored) (hnodes : other.nodes = inner.nodes)
    (hindex : other.relationshipIndex = inner.relationshipIndex) : other.Mirrored := by
  rw [Mirrored, hnodes, hindex]
  exact h

private theorem reindex {changed : Inner σ} {node : NodeId} (h : inner.Mirrored)
    (hindex : changed.relationshipIndex = inner.relationshipIndex)
    (hnodes : ∀ n : NodeId, n ≠ node → changed.nodes[n]? = inner.nodes[n]?) :
    (changed.reindexNodeRelationships node).Mirrored := by
  have hbefore : changed.relationshipIndex.Mirrors (graphEdges inner.nodes) := hindex ▸ h
  have hafter := reindexNodeRelationships_mirrors hbefore node
  rw [replaceEdges_graphEdges hnodes] at hafter
  exact hafter

private theorem ensureNode (h : inner.Mirrored) (node : NodeId) :
    (inner.ensureNode node).Mirrored := by
  rw [Mirrored, Inner.ensureNode, graphEdges_insert_nodeEntry]
  exact h

private theorem merge {changed : Inner σ} {state : NodeState} (h : inner.Mirrored)
    (hindex : changed.relationshipIndex = inner.relationshipIndex)
    (hnodes : changed.nodes = mergeNodeState inner.nodes state) :
    (changed.reindexNodeRelationships state.id).Mirrored := by
  refine h.reindex hindex fun n hn => ?_
  rw [hnodes, mergeNodeState, BTreeMap.get_insert, if_neg fun heq => hn heq.symm]

private theorem applyNodeState (h : inner.Mirrored) (state : NodeState) :
    (inner.applyNodeState state).Mirrored := by
  obtain ⟨overlay, keys, heq⟩ := refreshRecordOverlay_eq (inner.mergeState state) state.id
  rw [Inner.applyNodeState, heq]
  exact h.merge rfl rfl

end Inner.Mirrored

/-- A rebuilt index mirrors the graph. -/
theorem Inner.mirrored_rebuild (inner : Inner σ) : inner.rebuildRelationshipIndex.Mirrored := by
  have hmirrors := inner.rebuildRelationshipIndex_mirrors
  obtain ⟨index, heq⟩ := inner.rebuildRelationshipIndex_eq
  rw [heq] at hmirrors ⊢
  exact hmirrors

private theorem Inner.mirrored_mergeSnapshot (inner : Inner σ) (snapshot : DatabaseSnapshot) :
    (inner.mergeSnapshotIntoInner snapshot).Mirrored := by
  rw [mergeSnapshotIntoInner]
  obtain ⟨overlay, keys, heq⟩ := Inner.rebuildRecordOverlay_eq
    (Inner.rebuildRelationshipIndex
      { snapshot.nodes.valueList.foldl mergeState inner with
        scopePolicies := extendPolicies
          (snapshot.nodes.valueList.foldl mergeState inner).scopePolicies snapshot.scopePolicies
        missingNodes := ∅ })
  rw [heq]
  exact (Inner.mirrored_rebuild _).congr rfl rfl

private theorem Inner.mirrored_loadSnapshot (inner : Inner σ) (snapshot : DatabaseSnapshot) :
    (inner.loadSnapshot snapshot).Mirrored :=
  Inner.mirrored_rebuild _

/-- An empty index is right when there is no edge. -/
theorem Inner.mirrored_of_empty {inner : Inner σ} (hindex : inner.relationshipIndex = .empty) :
    inner.Mirrored ↔ graphEdges inner.nodes = ∅ := by
  rw [Inner.Mirrored, hindex]
  constructor
  · intro h
    refine Set.eq_empty_iff_forall_notMem.mpr fun e he => ?_
    have hgroup := (h.outbound.mem e.source e).mpr ⟨he, rfl⟩
    exact ((RelationshipIndex.Mirrors.empty.outbound.mem e.source e).mp hgroup).1
  · intro h
    rw [h]
    exact RelationshipIndex.Mirrors.empty

theorem graphEdges_empty : graphEdges ∅ = ∅ := by
  refine Set.eq_empty_iff_forall_notMem.mpr fun e he => ?_
  obtain ⟨state, hstate, -⟩ := he
  simp at hstate

variable [RecordStore σ]

/-- A store returns nodes under their own ids. -/
def KeyedNodes (σ : Type) [RecordStore σ] : Prop :=
  ∀ (engine : σ) node state, IncrementalStore.getNode engine node = .ok (some state) →
    state.id = node

/-- Asking for a node keeps the index in step with the nodes. -/
theorem Inner.Mirrored.load (hkeyed : KeyedNodes σ) (h : inner.Mirrored) (node : NodeId) :
    (maybeLoadNode node inner).2.Mirrored := by
  rcases maybeLoadNode_cases inner node with
    heq | ⟨-, -, engine, -, ⟨-, -, heq⟩ | ⟨state, hstored, heq⟩⟩ <;> rw [heq]
  · exact h
  · exact h.congr rfl rfl
  · obtain rfl := hkeyed engine node state hstored
    exact h.merge rfl rfl

/-- Commands keep the index a mirror. -/
theorem Inner.Mirrored.exec (hkeyed : KeyedNodes σ) (h : inner.Mirrored) (c : Command) :
    (Command.exec c inner).2.Mirrored := by
  cases c with
  | authorize anchor segments =>
    rw [Command.exec, ensureCanonicalWriteAllowed_state]
    exact h
  | load node => exact h.load hkeyed node
  | tryLoad node => exact h.load hkeyed node
  | ensure node => exact h.ensureNode node
  | apply action =>
    have hissued : (inner.issue action.nspace action).2.Mirrored := h
    exact Inner.applyOperationInternal_mirrors hissued _ .local
  | nodeId | field | state | edges | overlay | storedRecords => exact h

private theorem Saved.mirrored_iff {after : Inner σ} (h : Saved inner after) :
    after.Mirrored ↔ inner.Mirrored := by
  rcases h with rfl | rfl
  · exact Iff.rfl
  · obtain ⟨unflushed, engine, id, overlay, keys, heq⟩ := persistIfNeeded_eq inner
    rw [heq]
    exact Iff.rfl

private theorem Inner.Mirrored.saved {after : Inner σ} (h : inner.Mirrored)
    (hsaved : Saved inner after) : after.Mirrored :=
  hsaved.mirrored_iff.mpr h

end Plain

/-! ## Transactions -/

namespace Session

variable {σ : Type} {s : Session σ}

/-- The index holds the edges of all nodes that are not put down for reindexing. -/
def IndexPending (s : Session σ) : Prop :=
  ∃ E, s.inner.relationshipIndex.Mirrors E ∧
    ∀ e : TraversalEdge, e.source ∉ s.journal.relationshipIndexPending →
      (e ∈ E ↔ e ∈ graphEdges s.inner.nodes)

/-- Nothing is put down when a transaction starts. -/
theorem indexPending_start {inner : Inner σ} (h : inner.Mirrored) (fetches : BTreeSet NodeId) :
    (Session.start inner fetches).IndexPending :=
  ⟨_, h, fun _ _ => Iff.rfl⟩

namespace IndexPending

/-- A state with the same edges, index and nodes put down. -/
theorem congr {t : Session σ} (h : s.IndexPending)
    (hedges : graphEdges t.inner.nodes = graphEdges s.inner.nodes)
    (hindex : t.inner.relationshipIndex = s.inner.relationshipIndex)
    (hpending : t.journal.relationshipIndexPending = s.journal.relationshipIndexPending) :
    t.IndexPending := by
  rw [IndexPending, hedges, hindex, hpending]
  exact h

private theorem change {t : Session σ} {node : NodeId} (h : s.IndexPending)
    (hnodes : ∀ n : NodeId, n ≠ node → t.inner.nodes[n]? = s.inner.nodes[n]?)
    (hindex : t.inner.relationshipIndex = s.inner.relationshipIndex)
    (hpending : t.journal.relationshipIndexPending =
      s.journal.relationshipIndexPending.insert node) : t.IndexPending := by
  obtain ⟨E, hE, heq⟩ := h
  refine ⟨E, hindex ▸ hE, fun e he => ?_⟩
  rw [hpending, Std.ExtTreeSet.mem_insert, not_or] at he
  have hne : e.source ≠ node := fun hsource =>
    he.1 (by rw [hsource]; exact Std.ReflCmp.compare_self)
  rw [heq e he.2]
  simp only [graphEdges, Set.mem_ofPred_eq, hnodes e.source hne]

/-- Reindexing the nodes put down brings the index up to date. -/
theorem flush (h : s.IndexPending) :
    s.flushPendingRelationshipIndex.inner.Mirrored ∧
      s.flushPendingRelationshipIndex.journal.relationshipIndexPending = ∅ := by
  -- the nodes that are left are the ones whose edges may be old
  have hfold : ∀ (left : List NodeId) (t : Session σ),
      (∃ E, t.inner.relationshipIndex.Mirrors E ∧
        ∀ e : TraversalEdge, e.source ∉ left → (e ∈ E ↔ e ∈ graphEdges t.inner.nodes)) →
      (left.foldl reindexNodeRelationships t).inner.Mirrored ∧
        (left.foldl reindexNodeRelationships t).journal.relationshipIndexPending =
          t.journal.relationshipIndexPending := by
    intro left
    induction left with
    | nil =>
      rintro t ⟨E, hE, heq⟩
      have hset : E = graphEdges t.inner.nodes := Set.ext fun e => heq e List.not_mem_nil
      subst hset
      exact ⟨hE, rfl⟩
    | cons node left ih =>
      rintro t ⟨E, hE, heq⟩
      have hjournal : (t.journalNode node).journal.relationshipIndexPending =
          t.journal.relationshipIndexPending := by
        rw [journalNode_eq]
      have hpending : (t.reindexNodeRelationships node).journal.relationshipIndexPending =
          t.journal.relationshipIndexPending := hjournal
      have hinner : (t.reindexNodeRelationships node).inner =
          t.inner.reindexNodeRelationships node := by
        rw [reindexNodeRelationships, journalNode_inner]
      rw [List.foldl_cons, ← hpending]
      refine ih (t.reindexNodeRelationships node)
        ⟨_, hinner ▸ Inner.reindexNodeRelationships_mirrors hE node, fun e he => ?_⟩
      rw [hinner]
      simp only [replaceEdges, Set.mem_ofPred_eq]
      split
      · exact Iff.rfl
      · rename_i hne
        exact heq e (List.not_mem_cons_of_ne_of_not_mem hne he)
  obtain ⟨E, hE, heq⟩ := h
  exact hfold _ _ ⟨E, hE, fun e he => heq e fun hmem => he (Std.ExtTreeSet.mem_toList.mpr hmem)⟩

private theorem applyLocal (h : s.IndexPending) (action : OperationAction) :
    (s.applyLocal action).IndexPending := by
  have hissued : { s with inner := (s.inner.issue action.nspace action).2 }.IndexPending := h
  rw [Session.applyLocal]
  generalize { s with inner := (s.inner.issue action.nspace action).2 } = t at hissued ⊢
  generalize (s.inner.issue action.nspace action).1 = op
  rw [Session.applyOperationInternal]
  split
  · have hjournal : ({ t with inner.clock := t.inner.clock.observe op.revision }.journalNode
        op.action.node).journal.relationshipIndexPending =
          t.journal.relationshipIndexPending := by
      rw [journalNode_eq]
    simp only [journalNode_inner]
    cases haccepted : (applyToNodes t.inner.nodes op).2 with
    | false =>
      have hmem : op.action.node ∈ t.inner.nodes := by
        by_contra habsent
        rw [Inner.applyToNodes_accepts_of_absent habsent] at haccepted
        cases haccepted
      simp only [Bool.false_eq_true, if_false]
      exact hissued.congr (by rw [applyToNodes_refused hmem haccepted]) rfl hjournal
    | true =>
      simp only [if_true, accept, requestReindexNodeRelationships]
      obtain ⟨overlay, keys, hoverlay⟩ := Inner.refreshRecordOverlay_eq
        { t.inner with
          clock := t.inner.clock.observe op.revision
          nodes := (applyToNodes t.inner.nodes op).1 } (operationSourceNode op)
      rw [hoverlay]
      refine hissued.change (fun n hn => ?_) rfl (congrArg (·.insert op.action.node) hjournal)
      rw [applyToNodes, BTreeMap.get_insert, if_neg fun heq => hn heq.symm]
  · exact hissued

variable [RecordStore σ]

private theorem load (hkeyed : KeyedNodes σ) (h : s.IndexPending) (node : NodeId) :
    (Session.load node s).2.IndexPending := by
  rw [Session.load]
  split
  · exact h
  split
  · exact h
  split
  · exact h
  rename_i engine hengine
  split
  · exact h
  · rename_i state hstate
    have hid := hkeyed engine node state hstate
    simp only [requestReindexNodeRelationships, journalMissingNode_inner, journalNode_inner]
    refine h.change (fun n hn => ?_) rfl (by rw [journalMissingNode_eq, journalNode_eq])
    dsimp only
    rw [mergeNodeState, BTreeMap.get_insert, if_neg fun heq => hn (heq.symm.trans hid)]
  · split
    · exact h
    · refine h.congr ?_ ?_ ?_
      · simp only [journalMissingNode_inner]
      · simp only [journalMissingNode_inner]
      · simp only [journalMissingNode_eq]

/-- Commands of a session keep the index up to what is pending. -/
theorem exec (hkeyed : KeyedNodes σ) (h : s.IndexPending) (c : Command) :
    (Session.exec c s).2.IndexPending := by
  cases c with
  | load node => exact h.load hkeyed node
  | tryLoad node => exact h.load hkeyed node
  | ensure node =>
    refine h.congr ?_ ?_ ?_
    · simp only [Session.exec, Effect.modify, Session.ensureNode, journalMissingNode_inner,
        journalNode_inner, Inner.ensureNode, graphEdges_insert_nodeEntry]
    · simp only [Session.exec, Effect.modify, Session.ensureNode, journalMissingNode_inner,
        journalNode_inner, Inner.ensureNode]
    · simp only [Session.exec, Effect.modify, Session.ensureNode, journalMissingNode_eq,
        journalNode_eq]
  | apply action => exact h.applyLocal action
  | edges node =>
    obtain ⟨hmirrored, hpending⟩ := h.flush
    exact ⟨_, hmirrored, fun _ _ => Iff.rfl⟩
  | nodeId hint => exact h.congr rfl rfl rfl
  | authorize | field | state | overlay | storedRecords => exact h

end IndexPending

end Session

/-! ## Runs -/

section Run

variable {σ : Type} [RecordStore σ]

/-- A transaction, committed or taken back, leaves the index up to date. -/
theorem Inner.Mirrored.inTransaction (hkeyed : KeyedNodes σ) {db : Database σ}
    (h : db.inner.Mirrored) (body : Program Unit) :
    (inTransaction body db).2.inner.Mirrored := by
  have hpending := Script.preserves (I := Session.IndexPending) (fun c s hs => hs.exec hkeyed c)
    body (Session.indexPending_start h db.scheduledNodeFetches)
  have hundoable := Session.Undoable.run db.inner db.scheduledNodeFetches
    (db.inner.indexMatches_iff.mpr h) (fun engine node state _ => hkeyed engine node state) body
  rcases inTransaction_inner body db with ⟨value, s, hrun, hsaved⟩ | ⟨e, s, hrun, heq⟩ <;>
    rw [hrun] at hpending hundoable
  · exact Inner.Mirrored.saved hpending.flush.1 hsaved
  · obtain ⟨index, hfold, hmirrors⟩ := hundoable.restore_index
    rw [heq, Session.restore, hfold]
    rw [← hundoable.restoreState_nodes] at hmirrors
    exact hmirrors

/-- `load_snapshot`. -/
def loadSnapshot (snapshot : DatabaseSnapshot) : Effect (Database σ) PrimadbError Unit := fun db =>
  finalizeChange .everything
    { db with inner := db.inner.loadSnapshot snapshot, scheduledNodeFetches := ∅ }

/-- `attach_incremental_store` on the database, without its answer. -/
def attachStore (store : σ) : Effect (Database σ) PrimadbError Unit := fun db =>
  match IncrementalStore.loadMetadata store with
  | .error e => (.error e, db)
  | .ok _ => ((attachIncrementalStore store db.inner).1.map fun _ => (),
    { db with inner := (attachIncrementalStore store db.inner).2, scheduledNodeFetches := ∅ })

/-- What changes nodes or index of a database. -/
inductive IndexEvent (σ : Type) where
  /-- A local write, a transaction, remote operations, a merged snapshot or node state. -/
  | mutation (call : Mutation)
  /-- A node is asked for and loaded from the store. -/
  | load (node : NodeId)
  | loadSnapshot (snapshot : DatabaseSnapshot)
  /-- A store is attached. -/
  | attach (store : σ)

/-- A store without data is attached only while no node in memory has a link or a set member. -/
def Database.AttachesUnlinked (db : Database σ) : IndexEvent σ → Prop
  | .attach store => IncrementalStore.loadMetadata store = .ok none → graphEdges db.inner.nodes = ∅
  | _ => True

/-- Attaching a store empties the index, and the nodes too when the store holds data. -/
theorem attachIncrementalStore_saved {store : σ} {metadata : Option StorageMetadata}
    (hmetadata : IncrementalStore.loadMetadata store = .ok metadata) (inner : Inner σ) :
    ∃ attached, Saved attached (attachIncrementalStore store inner).2 ∧
      attached.relationshipIndex = .empty ∧
      attached.nodes = (if metadata.isSome then ∅ else inner.nodes) ∧
      attached.clock = (metadata.map (·.clock)).getD inner.clock := by
  have hlast : ∀ attached : Inner σ, Saved attached ((do
      persistIfNeeded
      pure metadata.isSome : Call σ Bool) attached).2 := by
    intro attached
    rw [Effect.bind_apply]
    rcases hpersist : persistIfNeeded attached with ⟨e | _, done⟩ <;>
      exact .inr (congrArg Prod.snd hpersist).symm
  rw [attachIncrementalStore, hmetadata]
  cases metadata with
  | none => exact ⟨_, hlast _, rfl, rfl, rfl⟩
  | some metadata => exact ⟨_, hlast _, rfl, rfl, rfl⟩

/-- Attaching a store leaves the index right exactly when no edge is kept. -/
theorem Inner.Mirrored.attach_iff {db : Database σ} (h : db.inner.Mirrored) (store : σ) :
    db.AttachesUnlinked (.attach store) ↔ (attachStore store db).2.inner.Mirrored := by
  rw [Database.AttachesUnlinked, attachStore]
  cases hmetadata : IncrementalStore.loadMetadata store with
  | error e => exact iff_of_true (fun hnone => by cases hnone) h
  | ok metadata =>
    obtain ⟨attached, hsaved, hindex, hnodes, -⟩ := attachIncrementalStore_saved hmetadata db.inner
    rw [hsaved.mirrored_iff, Inner.mirrored_of_empty hindex, hnodes]
    cases metadata with
    | none => exact forall_prop_of_true rfl
    | some metadata => exact iff_of_true (fun hnone => by cases hnone) graphEdges_empty

/-- A new database. -/
def Database.new (replicaId : String) (wall : WallClock) (policies : BTreeMap String ScopePolicy)
    (limits : PrimadbLimits) : Database σ :=
  ⟨Inner.configured replicaId wall policies limits, ∅, 0, []⟩

variable [Blake3]

/-- A call that changes the graph leaves the index up to date. -/
theorem Inner.Mirrored.mutation (hkeyed : KeyedNodes σ) {db : Database σ}
    (h : db.inner.Mirrored) (call : Mutation) : (call.run db).2.inner.Mirrored := by
  cases call with
  | write call =>
    cases call with
    | chain call =>
      have hprogram : (call.program.exec db.inner).2.Mirrored :=
        Script.preserves (I := Inner.Mirrored) (fun c s hs => hs.exec hkeyed c) call.program h
      change (call.run db.inner).2.Mirrored
      rw [call.run_eq, Effect.bind_apply]
      rcases hexec : call.program.exec db.inner with ⟨e | value, t⟩ <;> rw [hexec] at hprogram
      · exact hprogram
      · exact hprogram.saved (.inr rfl)
    | transaction body => exact h.inTransaction hkeyed body
    | recordBatch fuel batch => exact h.inTransaction hkeyed _
  | applyOperations ops =>
    have hcounting : ∀ (ops : List Operation) (inner : Inner σ), inner.Mirrored →
        (applyRemoteCounting ops inner).2.Mirrored := by
      intro ops
      induction ops with
      | nil => exact fun _ hinner => hinner
      | cons op ops ih =>
        exact fun inner hinner => ih _ (Inner.applyOperationInternal_mirrors hinner op .remote)
    rw [Mutation.run_applyOperations]
    exact (hcounting ops db.inner h).saved (applyOperations_saved ops db.inner)
  | mergeSnapshot snapshot =>
    rw [Mutation.run, Primadb.mergeSnapshot, finalizeChange_inner]
    exact (db.inner.mirrored_mergeSnapshot snapshot).saved (.inr rfl)
  | applyNodeState state =>
    rw [Mutation.run_applyNodeState]
    exact (h.applyNodeState state).saved (applyNodeState_saved state db)

/-- The database after an event, whatever its result. -/
def Database.indexStep (db : Database σ) : IndexEvent σ → Database σ
  | .mutation call => (call.run db).2
  | .load node => { db with inner := (maybeLoadNode node db.inner).2 }
  | .loadSnapshot snapshot => (loadSnapshot snapshot db).2
  | .attach store => (attachStore store db).2

/-- One event keeps the index right exactly when it meets the condition. -/
theorem Inner.Mirrored.step_iff (hkeyed : KeyedNodes σ) {db : Database σ}
    (h : db.inner.Mirrored) {event : IndexEvent σ} :
    db.AttachesUnlinked event ↔ (db.indexStep event).inner.Mirrored := by
  cases event with
  | mutation call => exact iff_of_true trivial (h.mutation hkeyed call)
  | load node => exact iff_of_true trivial (h.load hkeyed node)
  | loadSnapshot snapshot =>
    refine iff_of_true trivial ?_
    rw [Database.indexStep, Primadb.loadSnapshot, finalizeChange_inner]
    exact (db.inner.mirrored_loadSnapshot snapshot).saved (.inr rfl)
  | attach store => exact h.attach_iff store

/-- In a run from a new database the index holds exactly the edges of the nodes in memory in every
state, precisely when no store without data is attached over a node with a link or member. -/
theorem index_mirrors_iff (hkeyed : KeyedNodes σ) (replicaId : String) (wall : WallClock)
    (policies : BTreeMap String ScopePolicy) (limits : PrimadbLimits)
    (events : List (IndexEvent σ)) :
    (∀ n, ((events.take n).foldl Database.indexStep
        (.new replicaId wall policies limits)).inner.Mirrored) ↔
      Run.Along Database.indexStep Database.AttachesUnlinked
        (.new replicaId wall policies limits) events := by
  refine (Run.along_iff_take (I := fun db : Database σ => db.inner.Mirrored)
    (fun h => h.step_iff hkeyed) ?_).symm
  exact (Inner.mirrored_of_empty rfl).mpr graphEdges_empty

end Run

theorem keyedNodes_recordTable : KeyedNodes RecordTable := by
  intro engine node state hstate
  cases hstate

/-- A link is written at a field. -/
def writesLink : IndexEvent RecordTable :=
  .mutation (.write (.chain (.put "n" ["f"] (.object [("g", .bool true)]))))

/-- Attaching first and linking then keeps the index right. -/
theorem index_mirrors_iff_attach_first :
    KeyedNodes RecordTable ∧ ∀ n, ((([.attach ⟨∅⟩, writesLink] : List (IndexEvent RecordTable)).take
      n).foldl (@Database.indexStep _ _ plainHash)
        (.new "r" ⟨fun _ => 0, 0⟩ ∅ .default)).inner.Mirrored := by
  refine ⟨keyedNodes_recordTable, (@index_mirrors_iff RecordTable _ plainHash
    keyedNodes_recordTable "r" ⟨fun _ => 0, 0⟩ ∅ .default _).mpr ?_⟩
  exact ⟨fun _ => graphEdges_empty, trivial, trivial⟩

/-- Attaching a store without data after a link was written loses the link in the index. -/
theorem attach_loses_links :
    ¬ (([writesLink, .attach ⟨∅⟩] : List (IndexEvent RecordTable)).foldl
      (@Database.indexStep _ _ plainHash)
        (.new "r" ⟨fun _ => 0, 0⟩ ∅ .default)).inner.Mirrored := by
  intro h
  have hedges : (((([writesLink, .attach ⟨∅⟩] : List (IndexEvent RecordTable)).foldl
      (@Database.indexStep _ _ plainHash)
        (.new "r" ⟨fun _ => 0, 0⟩ ∅ .default)).inner.nodes["n"]?).map (nodeEdges "n")) =
      some [⟨"n", "f", "n/f", .link⟩] := by decide +kernel
  obtain ⟨state, hstate, hstateEdges⟩ := Option.map_eq_some_iff.mp hedges
  have hgroup := (h.outbound.mem "n" ⟨"n", "f", "n/f", .link⟩).mpr
    ⟨⟨state, hstate, hstateEdges ▸ List.mem_singleton.mpr rfl⟩, rfl⟩
  exact absurd hgroup (by decide +kernel)

end Primadb
