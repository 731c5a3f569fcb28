import Primadb.Db.IndexRuns
import Primadb.Db.Revision

/-!
# Transactions as atomic calls

A transaction writes in place, journals what it overwrites, and puts nodes down for reindexing
instead of reindexing them. What it is for is simpler: the body runs as it would outside, and a
body that fails has done nothing. The two agree on every database whose index is up to date and
whose queues know their positions.
-/

namespace Primadb

variable {σ : Type}

/-! ## Outside a transaction the index is only written -/

/-- Refreshing the overlay does not look at the index. -/
theorem Inner.refreshRecordOverlay_index (inner : Inner σ) (index : RelationshipIndex)
    (node : NodeId) : { inner with relationshipIndex := index }.refreshRecordOverlay node =
      { inner.refreshRecordOverlay node with relationshipIndex := index } := by
  simp only [refreshRecordOverlay]
  repeat' split
  all_goals simp_all

/-- An operation does not look at the index. -/
theorem Inner.applyOperationInternal_index (inner : Inner σ) (index : RelationshipIndex)
    (op : Operation) :
    ∃ index', ({ inner with relationshipIndex := index }.applyOperationInternal op .local).2 =
      { (inner.applyOperationInternal op .local).2 with relationshipIndex := index' } := by
  have hadmits : { inner with relationshipIndex := index }.admits op .local =
    inner.admits op .local := rfl
  simp only [applyOperationInternal, applyAdmitted, hadmits]
  split
  · split
    · rw [refreshRecordOverlay_index { inner with
        clock := inner.clock.observe op.revision
        nodes := (applyToNodes inner.nodes op).1 }]
      exact ⟨_, rfl⟩
    · exact ⟨_, rfl⟩
  · exact ⟨_, rfl⟩

variable [RecordStore σ]

/-- A command that does not read edges answers without the index, and leaves everything else as
it would. -/
theorem Command.exec_index {c : Command} (hc : ∀ node, c ≠ .edges node) (inner : Inner σ)
    (index : RelationshipIndex) :
    (c.exec { inner with relationshipIndex := index }).1 = (c.exec inner).1 ∧
      ∃ index', (c.exec { inner with relationshipIndex := index }).2 =
        { (c.exec inner).2 with relationshipIndex := index' } := by
  have hload : ∀ node, (maybeLoadNode node { inner with relationshipIndex := index }).1 =
      (maybeLoadNode node inner).1 ∧ ∃ index', (maybeLoadNode node
        { inner with relationshipIndex := index }).2 =
          { (maybeLoadNode node inner).2 with relationshipIndex := index' } := by
    intro node
    have hresident : { inner with relationshipIndex := index }.resident node =
      inner.resident node := rfl
    simp only [maybeLoadNode, hresident]
    repeat' split
    all_goals exact ⟨rfl, _, rfl⟩
  cases c with
  | load node => exact hload node
  | tryLoad node => exact ⟨rfl, (hload node).2⟩
  | authorize anchor segments =>
    refine ⟨?_, index, ?_⟩
    · simp only [Command.exec, ensureCanonicalWriteAllowed, Effect.get_bind]
      rcases policyForPath inner.scopePolicies (watchPathKey anchor segments) with
        _ | ⟨scope, policy⟩
      · rfl
      · dsimp only
        split <;> rfl
    · rw [Command.exec, ensureCanonicalWriteAllowed_state, ensureCanonicalWriteAllowed_state]
  | apply action =>
    exact ⟨rfl, (inner.issue action.nspace action).2.applyOperationInternal_index index _⟩
  | edges node => exact absurd rfl (hc node)
  | ensure | nodeId | field | state | overlay | storedRecords => exact ⟨rfl, _, rfl⟩

/-! ## The journaled body against the plain one -/

/-- A session stands for a plain state: they differ in the index, whose missing nodes are put
down. -/
structure Session.StandsFor (fetches : BTreeSet NodeId) (s : Session σ) (inner : Inner σ) :
    Prop where
  state : ∃ index, s.inner = { inner with relationshipIndex := index }
  fetched : s.scheduledNodeFetches = fetches
  pending : s.IndexPending
  mirrored : inner.Mirrored

namespace Session

variable {s : Session σ} {inner : Inner σ} {fetches : BTreeSet NodeId}

omit [RecordStore σ] in
private theorem flush_scheduledNodeFetches (s : Session σ) :
    s.flushPendingRelationshipIndex.scheduledNodeFetches = s.scheduledNodeFetches := by
  refine List.foldlRecOn (motive := fun t : Session σ =>
    t.scheduledNodeFetches = s.scheduledNodeFetches) _ _ rfl ?_
  intro t ht node _
  rw [reindexNodeRelationships, journalNode_eq]
  exact ht

omit [RecordStore σ] in
/-- Reindexing what is put down leads to the plain state. -/
theorem StandsFor.flush (h : StandsFor fetches s inner) :
    s.flushPendingRelationshipIndex.inner = inner := by
  obtain ⟨index, hs⟩ := h.state
  obtain ⟨index', hflush⟩ := s.flushPendingRelationshipIndex_inner
  have hmirrored := h.pending.flush.1
  rw [hs] at hflush
  rw [hflush] at hmirrored ⊢
  rw [show index' = inner.relationshipIndex from hmirrored.unique h.mirrored]

private theorem exec_scheduledNodeFetches (c : Command) (s : Session σ) :
    (exec c s).2.scheduledNodeFetches = s.scheduledNodeFetches := by
  have hload : ∀ node, (load node s).2.scheduledNodeFetches = s.scheduledNodeFetches := by
    intro node
    rw [load]
    repeat' split
    all_goals simp only [requestReindexNodeRelationships, journalMissingNode_eq, journalNode_eq]
  cases c with
  | load node => exact hload node
  | tryLoad node => exact hload node
  | ensure => simp only [exec, Effect.modify, ensureNode, journalMissingNode_eq, journalNode_eq]
  | apply action =>
    simp only [exec, Effect.modify, applyLocal, applyOperationInternal]
    repeat' split
    all_goals simp only [accept, requestReindexNodeRelationships, journalNode_eq]
  | edges node => exact s.flush_scheduledNodeFetches
  | authorize | nodeId | field | state | overlay | storedRecords => rfl

/-- Every command but a read of edges answers inside a transaction as outside. -/
theorem exec_answer {c : Command} (hc : ∀ node, c ≠ .edges node) (s : Session σ) :
    (exec c s).1 = (c.exec s.inner).1 := by
  cases c with
  | load node => exact (lockstep_load node s s.inner ⟨rfl, rfl, rfl⟩).1
  | edges node => exact absurd rfl (hc node)
  | authorize | tryLoad | ensure | apply | nodeId | field | state | overlay | storedRecords => rfl

/-- A command answers inside a transaction as outside, and the states stay matched. -/
theorem StandsFor.exec (hkeyed : KeyedNodes σ) (c : Command) :
    Effect.Lockstep (StandsFor fetches) (Session.exec c) (c.exec : Call σ c.Answer)
      fun _ => StandsFor fetches := by
  intro s inner h
  have hrest : ∀ index, (Session.exec c s).2.inner =
      { (c.exec inner).2 with relationshipIndex := index } →
      StandsFor fetches (Session.exec c s).2 (c.exec inner).2 := fun index hinner =>
    ⟨⟨index, hinner⟩, (exec_scheduledNodeFetches c s).trans h.fetched, h.pending.exec hkeyed c,
      h.mirrored.exec hkeyed c⟩
  by_cases hc : ∀ node, c ≠ .edges node
  · obtain ⟨index, hs⟩ := h.state
    obtain ⟨index', hinner⟩ := exec_inner c s
    obtain ⟨hanswer, index'', hplain⟩ := Command.exec_index hc inner index
    refine ⟨?_, hrest index' ?_⟩
    · rw [exec_answer hc, hs, hanswer]
    · rw [hinner, hs, hplain]
  · -- edges are read from the index after it is brought up to date
    push Not at hc
    obtain ⟨node, rfl⟩ := hc
    refine ⟨?_, hrest _ h.flush⟩
    exact congrArg (fun t : Inner σ => Except.ok (t.relationshipIndex.edgesOf node)) h.flush

/-- A body answers inside a transaction as outside. -/
theorem StandsFor.run (hkeyed : KeyedNodes σ) (fetches : BTreeSet NodeId) {α : Type}
    (program : Program α) (hmirrored : inner.Mirrored) :
    (program.run Session.exec (Session.start inner fetches)).1 = (program.exec inner).1 ∧
      StandsFor fetches (program.run Session.exec (Session.start inner fetches)).2
        (program.exec inner).2 :=
  Script.Only.lockstep (fun c _ => StandsFor.exec hkeyed c)
    (Script.only_of_forall (fun _ => trivial) program) _ _
    ⟨⟨_, rfl⟩, rfl, indexPending_start hmirrored fetches, hmirrored⟩

end Session

/-! ## Atomic transactions -/

section Atomic

variable {α : Type}

/-- What a transaction is for: the body runs as it would outside a transaction, a body that
succeeds is announced and persisted, one that fails has only read the system clock. -/
def atomicTransaction (program : Program α) : Effect (Database σ) PrimadbError (α × ℕ) := fun db =>
  match program.exec db.inner with
  | (.ok value, inner) =>
    let ops := inner.unflushedOps.operations.drop db.inner.unflushedOps.len
    let impact := ChangeImpact.fromOps ops inner.nodes
    let db := { db with inner := inner }
    if impact.isEmpty then (.ok (value, ops.length), db)
    else
      match finalizeChange impact db with
      | (.ok _, db) => (.ok (value, ops.length), db)
      | (.error e, db) => (.error e, db)
  | (.error e, inner) => (.error e, { db with inner := { db.inner with wall := inner.wall } })

/-- A transaction does exactly what an atomic one does, in its answer, the state it leaves, and the
change it announces, whether its body succeeds or fails. -/
theorem runLocalTransaction_atomic (hkeyed : KeyedNodes σ) {db : Database σ}
    (hindex : db.inner.Mirrored) (hqueues : db.inner.QueuesWf) (program : Program α) :
    runLocalTransaction program db = atomicTransaction program db := by
  obtain ⟨hanswer, hstands⟩ :=
    Session.StandsFor.run hkeyed db.scheduledNodeFetches program hindex
  have hundo := Session.Undoable.run db.inner db.scheduledNodeFetches
    (db.inner.indexMatches_iff.mpr hindex) (fun engine node state _ => hkeyed engine node state)
    program
  rw [runLocalTransaction, atomicTransaction]
  rcases hrun : program.run Session.exec (Session.start db.inner db.scheduledNodeFetches) with
    ⟨r, s⟩
  rcases hexec : program.exec db.inner with ⟨r', inner⟩
  rw [hrun, hexec] at hanswer hstands
  rw [hrun] at hundo
  dsimp only at hanswer hstands hundo
  subst hanswer
  obtain ⟨index, hs⟩ := hstands.state
  cases r with
  | error e =>
    dsimp only
    rw [hundo.restore hqueues.pendingOps hqueues.unflushedOps
      (db.inner.indexMatches_iff.mpr hindex), hs]
  | ok value =>
    have hcommitted : db.committed s = { db with inner := inner } := by
      rw [Database.committed, hstands.flush, s.flush_scheduledNodeFetches, hstands.fetched]
    have hannounced : s.announced db.inner.unflushedOps.len =
        inner.unflushedOps.operations.drop db.inner.unflushedOps.len := by
      rw [Session.announced, hs]
    dsimp only
    rw [hannounced]
    generalize db.committed s = done at hcommitted ⊢
    subst hcommitted
    rfl

end Atomic

/-- A transaction whose second put is refused. -/
theorem runLocalTransaction_atomic_putThenRefusedPut :
    runLocalTransaction putThenRefusedPut freshDatabase =
      atomicTransaction putThenRefusedPut freshDatabase :=
  runLocalTransaction_atomic (fun engine => engine.elim)
    ((Inner.mirrored_of_empty rfl).mpr graphEdges_empty) ⟨.empty, .empty⟩ putThenRefusedPut

end Primadb
