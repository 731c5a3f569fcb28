import Primadb.Core.Undo
import Primadb.Db.Footprint
import Primadb.Db.Relationships
import Primadb.Db.Transaction

/-!
# Rolling back a transaction

Every change inside a transaction is preceded by its journal entry. This is an
invariant of all commands, so it holds after any transaction body, and restoring
from the journal gives back the state at the start; only the system clock has
moved on.
-/

namespace Primadb

namespace CompactedOperations

open OperationCompactionKey

/-- Positions rebuilt from a list with distinct keys. -/
private theorem foldl_zipIdx (l : List Operation) (hl : (l.map fromOperation).Nodup) (start : ℕ)
    (m : BTreeMap OperationCompactionKey ℕ) (key : OperationCompactionKey) (index : ℕ) :
    ((l.zipIdx start).foldl (fun indices (entry : Operation × ℕ) =>
      indices.insert (fromOperation entry.1) entry.2) m)[key]? = some index ↔
      (∃ op i, l[i]? = some op ∧ fromOperation op = key ∧ index = start + i) ∨
        key ∉ l.map fromOperation ∧ m[key]? = some index := by
  induction l generalizing start m with
  | nil => simp
  | cons op l ih =>
    rw [List.map_cons, List.nodup_cons] at hl
    rw [List.zipIdx_cons, List.foldl_cons, ih hl.2]
    rw [List.map_cons, List.mem_cons, BTreeMap.get_insert]
    constructor
    · rintro (⟨o, i, ho, hk, rfl⟩ | ⟨hk, hm⟩)
      · exact Or.inl ⟨o, i + 1, by simpa using ho, hk, by omega⟩
      · split at hm
        · rename_i he
          exact Or.inl ⟨op, 0, rfl, he, by simpa using hm.symm⟩
        · rename_i he
          exact Or.inr ⟨fun h => h.elim (fun h => he h.symm) hk, hm⟩
    · rintro (⟨o, i, ho, hk, rfl⟩ | ⟨hk, hm⟩)
      · cases i with
        | zero =>
          cases Option.some.inj ho
          subst hk
          exact Or.inr ⟨hl.1, by simp⟩
        | succ i => exact Or.inl ⟨o, i, by simpa using ho, hk, by omega⟩
      · exact Or.inr ⟨fun h => hk (Or.inr h), by rwa [if_neg fun h => hk (Or.inl h.symm)]⟩

/-- Rebuilding the positions of a well-formed queue changes nothing. -/
theorem Wf.rebuildIndices_eq {queue : CompactedOperations} (h : queue.Wf) :
    queue.rebuildIndices = queue := by
  have hindices : queue.rebuildIndices.indices = queue.indices := by
    refine Std.ExtTreeMap.ext_getElem? fun key => Option.ext fun index => ?_
    refine (foldl_zipIdx queue.operations h.nodup 0 ∅ key index).trans ?_
    refine Iff.trans ?_ (h key index).symm
    simp only [Std.ExtTreeMap.getElem?_empty, reduceCtorEq, and_false, or_false, zero_add]
    constructor
    · rintro ⟨op, i, ho, hk, rfl⟩
      exact ⟨op, ho, hk⟩
    · exact fun ⟨op, ho, hk⟩ => ⟨op, index, ho, hk, rfl⟩
  cases queue
  exact congrArg (CompactedOperations.mk _) hindices

end CompactedOperations

namespace OperationQueueUndo

/-- The journal entry takes the queue back to `old`. -/
structure Undoes (undo : OperationQueueUndo) (old queue : CompactedOperations) : Prop where
  initialLen : undo.initialLen = old.operations.length
  length_le : old.operations.length ≤ queue.operations.length
  entries : ∀ i < old.operations.length,
    match undo.replaced[i]? with
    | some op => old.operations[i]? = some op
    | none => queue.operations[i]? = old.operations[i]?

namespace Undoes

variable {undo : OperationQueueUndo} {old queue : CompactedOperations}

/-- Nothing has to be undone at the start. -/
theorem start (queue : CompactedOperations) :
    Undoes ⟨queue.len, ∅⟩ queue queue where
  initialLen := rfl
  length_le := le_refl _
  entries i _ := by simp

private theorem push (h : Undoes undo old queue) (op : Operation) :
    Undoes (undo.note queue op) old (queue.push op) := by
  cases hi : queue.indices[OperationCompactionKey.fromOperation op]? with
  | none =>
    -- the operation is appended behind the old entries
    simp only [note, CompactedOperations.push, hi]
    refine ⟨h.initialLen, h.length_le.trans (by simp), fun i hlt => ?_⟩
    have he := h.entries i hlt
    split <;> rename_i hr <;> rw [hr] at he
    · exact he
    · rw [List.getElem?_append_left (lt_of_lt_of_le hlt h.length_le)]
      exact he
  | some index =>
    cases ho : queue.operations[index]? with
    | none => simpa only [note, CompactedOperations.push, hi, ho, ite_self] using h
    | some existing =>
      -- the entry at `index` is noted before it may be replaced
      have hnoted : ∀ i < old.operations.length,
          match (undo.note queue op).replaced[i]? with
          | some op => old.operations[i]? = some op
          | none => queue.operations[i]? = old.operations[i]? ∧ i ≠ index := by
        intro i hlt
        have he := h.entries i hlt
        by_cases hc : undo.replaced.contains index = true
        · have hnote : undo.note queue op = undo := by simp only [note, hi, if_pos hc]
          rw [hnote]
          cases hr : undo.replaced[i]? with
          | some v => rwa [hr] at he
          | none =>
            rw [hr] at he
            refine ⟨he, ?_⟩
            rintro rfl
            rw [Std.ExtTreeMap.contains_eq_isSome_getElem?, hr] at hc
            exact absurd hc (by simp)
        · have hnote : (undo.note queue op).replaced = undo.replaced.insert index existing := by
            simp only [note, hi, ho, if_neg hc]
          rw [hnote, BTreeMap.get_insert]
          by_cases hindex : index = i
          · subst hindex
            have hr : undo.replaced[index]? = none := by
              rw [Std.ExtTreeMap.contains_eq_isSome_getElem?] at hc
              simpa using hc
            rw [hr] at he
            rw [if_pos rfl]
            exact he.symm.trans ho
          · rw [if_neg hindex]
            cases hr : undo.replaced[i]? with
            | some v => rwa [hr] at he
            | none =>
              rw [hr] at he
              exact ⟨he, fun h => hindex h.symm⟩
      have hlen : (undo.note queue op).initialLen = old.operations.length := by
        simp only [note, hi, ho]
        split <;> exact h.initialLen
      simp only [CompactedOperations.push, hi, ho]
      split
      · refine ⟨hlen, by simpa using h.length_le, fun i hlt => ?_⟩
        have he := hnoted i hlt
        split <;> rename_i hr <;> rw [hr] at he
        · exact he
        · rw [List.getElem?_set_ne he.2.symm]
          exact he.1
      · refine ⟨hlen, h.length_le, fun i hlt => ?_⟩
        have he := hnoted i hlt
        split <;> rename_i hr <;> rw [hr] at he
        · exact he
        · exact he.1

private theorem restore (h : Undoes undo old queue) (hold : old.Wf) : undo.restore queue = old := by
  have hops : undo.replaced.toList.foldl (fun operations entry => operations.set entry.1 entry.2)
      (queue.operations.take undo.initialLen) = old.operations := by
    refine List.ext_getElem? fun i => ?_
    rw [BTreeMap.foldl_toList_at undo.replaced (π := fun (ops : List Operation) => ops[i]?)
      (g := fun current op => current.map fun _ => op)]
    · rw [h.initialLen, List.getElem?_take]
      by_cases hlt : i < old.operations.length
      · have he := h.entries i hlt
        have hsome := List.getElem?_eq_getElem (lt_of_lt_of_le hlt h.length_le)
        cases hr : undo.replaced[i]? with
        | some op =>
          rw [hr] at he
          simp only [if_pos hlt, hsome, Option.map_some]
          exact he.symm
        | none =>
          rw [hr] at he
          simp only [if_pos hlt]
          exact he
      · rw [List.getElem?_eq_none (not_lt.mp hlt)]
        cases undo.replaced[i]? <;> simp [hlt]
    · intro ops a op _
      simp only [List.getElem?_set]
      split
      · rename_i ha
        subst ha
        split
        · rename_i hlt
          rw [List.getElem?_eq_getElem hlt, Option.map_some]
        · rename_i hlt
          rw [List.getElem?_eq_none (not_lt.mp hlt), Option.map_none]
      · rfl
  rw [OperationQueueUndo.restore]
  simp only [hops]
  exact hold.rebuildIndices_eq

end Undoes

end OperationQueueUndo

namespace Session

variable {σ : Type}

/-- Journalling a node notes its state once. -/
theorem journalNode_eq (s : Session σ) (node : NodeId) :
    s.journalNode node =
      { s with journal.nodes := noteOnce s.journal.nodes node s.inner.nodes[node]? } := by
  rw [journalNode, noteOnce]
  split <;> rfl

/-- Journalling a missing node notes its membership once. -/
theorem journalMissingNode_eq (s : Session σ) (node : NodeId) :
    s.journalMissingNode node =
      { s with
        journal.missingNodes :=
          noteOnce s.journal.missingNodes node (s.inner.missingNodes.contains node) } := by
  rw [journalMissingNode, noteOnce]
  split <;> rfl

/-- The journal takes the session back to the state `old`. -/
structure Undoable (old : Inner σ) (fetches : BTreeSet NodeId) (s : Session σ) : Prop where
  clock : s.journal.clock = old.clock
  recordOverlay : s.journal.recordOverlay = old.recordOverlay
  recordOverlayNodeKeys : s.journal.recordOverlayNodeKeys = old.recordOverlayNodeKeys
  nodes : Recorded s.journal.nodes (fun n : NodeId => old.nodes[n]?)
    (fun n : NodeId => s.inner.nodes[n]?)
  missingNodes : Recorded s.journal.missingNodes (fun n : NodeId => old.missingNodes.contains n)
    (fun n : NodeId => s.inner.missingNodes.contains n)
  scheduledNodeFetches : Recorded s.journal.scheduledNodeFetches
    (fun n : NodeId => fetches.contains n) (fun n : NodeId => s.scheduledNodeFetches.contains n)
  pendingOps : s.journal.pendingOps.Undoes old.pendingOps s.inner.pendingOps
  unflushedOps : s.journal.unflushedOps.Undoes old.unflushedOps s.inner.unflushedOps
  storageEngine : s.inner.storageEngine = old.storageEngine
  scopePolicies : s.inner.scopePolicies = old.scopePolicies
  nextStorageTxId : s.inner.nextStorageTxId = old.nextStorageTxId
  limits : s.inner.limits = old.limits
  pendingSources : ∀ n ∈ s.journal.relationshipIndexPending, n ∈ s.journal.relationshipIndexSources
  index : ∃ E, s.inner.relationshipIndex.Mirrors E ∧
    ∀ e : TraversalEdge, e.source ∉ s.journal.relationshipIndexSources →
      (e ∈ E ↔ e ∈ graphEdges old.nodes)

namespace Undoable

variable {old : Inner σ} {fetches : BTreeSet NodeId} {s : Session σ}

/-- Nothing is changed when a transaction starts. -/
theorem start (inner : Inner σ) (fetches : BTreeSet NodeId) (h : inner.IndexMatches) :
    Undoable inner fetches (Session.start inner fetches) where
  clock := rfl
  recordOverlay := rfl
  recordOverlayNodeKeys := rfl
  nodes := Recorded.start
  missingNodes := Recorded.start
  scheduledNodeFetches := Recorded.start
  pendingOps := OperationQueueUndo.Undoes.start _
  unflushedOps := OperationQueueUndo.Undoes.start _
  storageEngine := rfl
  scopePolicies := rfl
  nextStorageTxId := rfl
  limits := rfl
  pendingSources := fun _ h => h
  index := ⟨_, inner.indexMatches_iff.mp h, fun _ _ => Iff.rfl⟩

private theorem journalNode (h : Undoable old fetches s) (node : NodeId) :
    Undoable old fetches (s.journalNode node) := by
  rw [journalNode_eq]
  exact { h with nodes := h.nodes.note node }

private theorem journalMissingNode (h : Undoable old fetches s) (node : NodeId) :
    Undoable old fetches (s.journalMissingNode node) := by
  rw [journalMissingNode_eq]
  exact { h with missingNodes := h.missingNodes.note node }

private theorem changeNode (h : Undoable old fetches s) (node : NodeId)
    {nodes : BTreeMap NodeId NodeState}
    (hnodes : ∀ n : NodeId, n ≠ node → nodes[n]? = s.inner.nodes[n]?) :
    Undoable old fetches
      { s.journalNode node with inner := { s.inner with nodes := nodes } } := by
  have hj := h.journalNode node
  refine { hj with nodes := ?_, missingNodes := ?_, pendingOps := ?_, unflushedOps := ?_,
                   storageEngine := h.storageEngine, scopePolicies := h.scopePolicies,
                   nextStorageTxId := h.nextStorageTxId, limits := h.limits, index := ?_ }
  · refine hj.nodes.change fun k hk => ?_
    rw [journalNode_inner]
    refine hnodes k fun he => ?_
    subst he
    rw [journalNode_eq, contains_noteOnce] at hk
    simp at hk
  · simpa only [journalNode_inner] using hj.missingNodes
  · simpa only [journalNode_inner] using hj.pendingOps
  · simpa only [journalNode_inner] using hj.unflushedOps
  · simpa only [journalNode_inner] using hj.index

private theorem changeMissing (h : Undoable old fetches s) (node : NodeId)
    {missing : BTreeSet NodeId}
    (hmissing : ∀ n : NodeId, n ≠ node → missing.contains n = s.inner.missingNodes.contains n) :
    Undoable old fetches
      { s.journalMissingNode node with inner := { s.inner with missingNodes := missing } } := by
  have hj := h.journalMissingNode node
  refine { hj with nodes := ?_, missingNodes := ?_, pendingOps := ?_, unflushedOps := ?_,
                   storageEngine := h.storageEngine, scopePolicies := h.scopePolicies,
                   nextStorageTxId := h.nextStorageTxId, limits := h.limits, index := ?_ }
  · simpa only [journalMissingNode_inner] using hj.nodes
  · refine hj.missingNodes.change fun k hk => ?_
    rw [journalMissingNode_inner]
    refine hmissing k fun he => ?_
    subst he
    rw [journalMissingNode_eq, contains_noteOnce] at hk
    simp at hk
  · simpa only [journalMissingNode_inner] using hj.pendingOps
  · simpa only [journalMissingNode_inner] using hj.unflushedOps
  · simpa only [journalMissingNode_inner] using hj.index

private theorem request (h : Undoable old fetches s) (node : NodeId) :
    Undoable old fetches (s.requestReindexNodeRelationships node) := by
  refine { h with pendingSources := fun n hn => ?_, index := ?_ }
  · refine Std.ExtTreeSet.mem_insert.mpr ((Std.ExtTreeSet.mem_insert.mp hn).imp_right ?_)
    exact h.pendingSources n
  · obtain ⟨E, hE, heq⟩ := h.index
    exact ⟨E, hE, fun e he => heq e fun hs => he (Std.ExtTreeSet.mem_insert.mpr (Or.inr hs))⟩

private theorem reindex (h : Undoable old fetches s) {node : NodeId}
    (hnode : node ∈ s.journal.relationshipIndexSources) :
    Undoable old fetches (s.reindexNodeRelationships node) := by
  have hj := h.journalNode node
  refine { hj with index := ?_ }
  obtain ⟨E, hE, heq⟩ := hj.index
  refine ⟨_, Inner.reindexNodeRelationships_mirrors hE node, fun e he => ?_⟩
  have hne : e.source ≠ node := by
    rintro rfl
    rw [reindexNodeRelationships, journalNode_eq] at he
    exact he hnode
  simp only [replaceEdges, Set.mem_ofPred_eq, if_neg hne]
  exact heq e he

private theorem flush (h : Undoable old fetches s) :
    Undoable old fetches s.flushPendingRelationshipIndex := by
  have hfold : ∀ (l : List NodeId) (t : Session σ), Undoable old fetches t →
      (∀ n ∈ l, n ∈ t.journal.relationshipIndexSources) →
      Undoable old fetches (l.foldl reindexNodeRelationships t) := by
    intro l
    induction l with
    | nil => exact fun _ ht _ => ht
    | cons n l ih =>
      intro t ht hl
      refine ih _ (ht.reindex (hl n List.mem_cons_self)) fun m hm => ?_
      rw [reindexNodeRelationships, journalNode_eq]
      exact hl m (List.mem_cons_of_mem _ hm)
  refine hfold _ _ { h with pendingSources := fun n hn => ?_ } fun n hn => ?_
  · exact absurd hn Std.ExtTreeSet.not_mem_empty
  · exact h.pendingSources n (Std.ExtTreeSet.mem_toList.mp hn)

private theorem ensureNode (h : Undoable old fetches s) (node : NodeId) :
    Undoable old fetches (s.ensureNode node) := by
  have hnodes : ∀ n : NodeId, n ≠ node →
      (s.inner.nodes.insert node (nodeEntry s.inner.nodes node))[n]? = s.inner.nodes[n]? :=
    fun n hn => by rw [BTreeMap.get_insert, if_neg fun he => hn he.symm]
  have hmissing : ∀ n : NodeId, n ≠ node →
      (s.inner.missingNodes.erase node).contains n = s.inner.missingNodes.contains n := by
    intro n hn
    simp [Ne.symm hn]
  have hchange := (h.changeNode node hnodes).changeMissing node hmissing
  rw [Session.ensureNode]
  simpa only [journalMissingNode_eq, journalNode_eq, Inner.ensureNode] using hchange

/-- Pushing an accepted operation onto both queues. -/
theorem accept (h : Undoable old fetches s) (op : Operation) :
    Undoable old fetches (s.accept op) := by
  obtain ⟨overlay, keys, hoverlay⟩ := s.inner.refreshRecordOverlay_eq (operationSourceNode op)
  have hreq : Undoable old fetches
      ({ s with inner := s.inner.refreshRecordOverlay (operationSourceNode op)
        }.requestReindexNodeRelationships (operationSourceNode op)) := by
    refine request ?_ _
    rw [hoverlay]
    exact { h with }
  exact { hreq with
    pendingOps := hreq.pendingOps.push op
    unflushedOps := hreq.unflushedOps.push op }

private theorem applyOperationInternal (h : Undoable old fetches s) (op : Operation) :
    Undoable old fetches (s.applyOperationInternal op).2 := by
  rw [Session.applyOperationInternal]
  split
  · have hclock : Undoable old fetches
        { s with inner := { s.inner with clock := s.inner.clock.observe op.revision } } :=
      { h with }
    have hnodes : ∀ n : NodeId, n ≠ op.action.node →
        (applyToNodes s.inner.nodes op).1[n]? = s.inner.nodes[n]? := by
      intro n hn
      rw [applyToNodes, BTreeMap.get_insert, if_neg fun he => hn he.symm]
    have hchange := hclock.changeNode op.action.node hnodes
    simp only [journalNode_inner]
    split
    · exact hchange.accept op
    · exact hchange
  · exact h

private theorem applyLocal (h : Undoable old fetches s) (action : OperationAction) :
    Undoable old fetches (s.applyLocal action) := by
  have hissue : Undoable old fetches
      { s with inner := (s.inner.issue action.nspace action).2 } := { h with }
  exact hissue.applyOperationInternal _

/-- Writing noted memberships back restores the set. -/
theorem foldl_restoreSetMembership {journal : BTreeMap NodeId Bool} {set new : BTreeSet NodeId}
    (h : Recorded journal (fun n : NodeId => set.contains n) (fun n : NodeId => new.contains n)) :
    journal.toList.foldl (fun set entry => restoreSetMembership set entry.1 entry.2) new = set := by
  refine Std.ExtTreeSet.ext_contains fun n => ?_
  refine Recorded.restore (fun (set : BTreeSet NodeId) n => set.contains n) restoreSetMembership
    ?_ h n
  intro set k v a
  cases v
  · simp only [restoreSetMembership, Bool.false_eq_true, if_false, BTreeSet.contains_erase]
    by_cases hk : k = a <;> simp [hk]
  · simp only [restoreSetMembership, if_true, BTreeSet.contains_insert]
    by_cases hk : k = a <;> simp [hk]

/-- Rolling back restores the nodes. -/
theorem restoreState_nodes (h : Undoable old fetches s) : s.restoreState.nodes = old.nodes := by
  refine Std.ExtTreeMap.ext_getElem? fun n => ?_
  refine Recorded.restore (fun (nodes : BTreeMap NodeId NodeState) n => nodes[n]?) restoreNode
    ?_ h.nodes n
  intro nodes k v a
  cases v <;> simp [restoreNode]

/-- Writing back gives the old state up to overlay, index and system clock. -/
theorem restoreState (h : Undoable old fetches s) (hpending : old.pendingOps.Wf)
    (hunflushed : old.unflushedOps.Wf) :
    s.restoreState =
      { old with
        wall := s.inner.wall
        recordOverlay := s.inner.recordOverlay
        recordOverlayNodeKeys := s.inner.recordOverlayNodeKeys
        relationshipIndex := s.inner.relationshipIndex } := by
  have hnodes : s.journal.nodes.toList.foldl
      (fun nodes entry => restoreNode nodes entry.1 entry.2) s.inner.nodes = old.nodes :=
    h.restoreState_nodes
  rw [Session.restoreState, hnodes, foldl_restoreSetMembership h.missingNodes,
    h.pendingOps.restore hpending, h.unflushedOps.restore hunflushed, h.clock, h.storageEngine,
    h.scopePolicies, h.nextStorageTxId, h.limits]

/-- The sources are reindexed over the nodes written back. -/
theorem restore_index (h : Undoable old fetches s) :
    ∃ index, s.journal.relationshipIndexSources.toList.foldl Inner.reindexNodeRelationships
        s.restoreState = { s.restoreState with relationshipIndex := index } ∧
      index.Mirrors (graphEdges old.nodes) := by
  obtain ⟨E, hE, heq⟩ := h.index
  have hmirrors : s.restoreState.relationshipIndex.Mirrors E := hE
  obtain ⟨index, hfold, hindex⟩ :=
    Inner.foldl_reindex hmirrors s.journal.relationshipIndexSources.toList
  have hset : {e : TraversalEdge | if e.source ∈ s.journal.relationshipIndexSources.toList then
      e ∈ graphEdges s.restoreState.nodes else e ∈ E} = graphEdges old.nodes := by
    ext e
    rw [h.restoreState_nodes]
    simp only [Set.mem_ofPred_eq, Std.ExtTreeSet.mem_toList]
    split
    · exact Iff.rfl
    · rename_i he
      exact heq e he
  exact ⟨index, hfold, hset ▸ hindex⟩

/-- Restoring from a sufficient journal gives back the old state; the system clock has moved. -/
theorem restore (h : Undoable old fetches s) (hpending : old.pendingOps.Wf)
    (hunflushed : old.unflushedOps.Wf) (hindex : old.IndexMatches) :
    s.restore = ({ old with wall := s.inner.wall }, fetches) := by
  obtain ⟨index, hfold, hmirrors⟩ := h.restore_index
  have hsame : index = old.relationshipIndex :=
    hmirrors.unique (old.indexMatches_iff.mp hindex)
  rw [Session.restore, hfold, hsame, foldl_restoreSetMembership h.scheduledNodeFetches,
    h.restoreState hpending hunflushed, h.recordOverlay, h.recordOverlayNodeKeys]

end Undoable

section Store

variable [RecordStore σ]

namespace Undoable

variable {old : Inner σ} {fetches : BTreeSet NodeId} {s : Session σ}

private theorem load (h : Undoable old fetches s) (hstore : old.KeyedStore) (node : NodeId) :
    Undoable old fetches (Session.load node s).2 := by
  rw [Session.load]
  split
  · exact h
  split
  · exact h
  split
  · exact h
  rename_i engine hengine
  split
  · exact h
  · rename_i state hstate
    have hid : state.id = node := hstore engine node state (h.storageEngine ▸ hengine) hstate
    have hnodes : ∀ n : NodeId, n ≠ node →
        (mergeNodeState s.inner.nodes state)[n]? = s.inner.nodes[n]? := by
      intro n hn
      rw [mergeNodeState, BTreeMap.get_insert, if_neg]
      exact fun he => hn (he.symm.trans hid)
    have hmissing : ∀ n : NodeId, n ≠ node →
        (s.inner.missingNodes.erase node).contains n = s.inner.missingNodes.contains n :=
      fun n hn => by simp [Ne.symm hn]
    have hchange := (h.changeNode node hnodes).changeMissing node hmissing
    refine request ?_ node
    simpa only [journalMissingNode_inner, journalNode_inner] using hchange
  · split
    · exact h
    · have hmissing : ∀ n : NodeId, n ≠ node →
          (s.inner.missingNodes.insert node).contains n = s.inner.missingNodes.contains n :=
        fun n hn => by simp [Ne.symm hn]
      simpa only [journalMissingNode_inner] using h.changeMissing node hmissing

/-- Every command keeps the journal sufficient. -/
theorem exec (h : Undoable old fetches s) (hstore : old.KeyedStore) (c : Command) :
    Undoable old fetches (Session.exec c s).2 := by
  cases c with
  | load node => exact h.load hstore node
  | tryLoad node => exact h.load hstore node
  | ensure node => exact h.ensureNode node
  | apply action => exact h.applyLocal action
  | edges node => exact h.flush
  | nodeId hint => exact { h with }
  | authorize | field | state | overlay | storedRecords => exact h

/-- After any transaction body the journal is sufficient. -/
theorem run (inner : Inner σ) (fetches : BTreeSet NodeId) (hindex : inner.IndexMatches)
    (hstore : inner.KeyedStore) {α : Type} (program : Program α) :
    Undoable inner fetches (program.run Session.exec (Session.start inner fetches)).2 :=
  Script.preserves (fun c _ h => h.exec hstore c) program (start inner fetches hindex)

end Undoable

end Store

end Session

variable {σ : Type} [RecordStore σ]

/-- A transaction whose body fails leaves the database as it was: clock, nodes, both queues with
their positions, record overlay with its key map, missing nodes, scheduled fetches and
relationship index are those before the transaction; only the system clock was read. -/
theorem runLocalTransaction_rollback (db : Database σ) {α : Type} (program : Program α)
    {e : PrimadbError} (hindex : db.inner.IndexMatches) (hqueues : db.inner.QueuesWf)
    (hstore : db.inner.KeyedStore)
    (herror : (program.run Session.exec
      (Session.start db.inner db.scheduledNodeFetches)).1 = .error e) :
    ∃ wall, runLocalTransaction program db =
      (.error e, { db with inner := { db.inner with wall := wall } }) := by
  have h := Session.Undoable.run db.inner db.scheduledNodeFetches hindex hstore program
  rcases hrun : program.run Session.exec (Session.start db.inner db.scheduledNodeFetches) with
    ⟨r, s⟩
  rw [hrun] at h herror
  refine ⟨s.inner.wall, ?_⟩
  simp only at herror
  subst herror
  rw [runLocalTransaction, hrun]
  simp only [h.restore hqueues.pendingOps hqueues.unflushedOps hindex]

/-- A put followed by a put that is refused. -/
def putThenRefusedPut : Program Unit := do
  Program.putJson "n" ["f"] (.object [("g", .bool true)])
  Program.putJson "n" [] .null

/-- The first put of the refused transaction is taken back. -/
theorem runLocalTransaction_rollback_putThenRefusedPut :
    ∃ wall, runLocalTransaction putThenRefusedPut freshDatabase =
      (.error (.expectedObject "n"),
        { freshDatabase with inner := { freshDatabase.inner with wall := wall } }) :=
  runLocalTransaction_rollback freshDatabase putThenRefusedPut rfl
    ⟨CompactedOperations.Wf.empty, CompactedOperations.Wf.empty⟩ (fun engine => engine.elim) rfl

end Primadb
