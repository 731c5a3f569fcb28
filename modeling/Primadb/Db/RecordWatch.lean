import Primadb.Core.Run
import Primadb.Db.Announcement
import Primadb.Db.Mutation
import Primadb.Db.Overlap

/-!
# Watches of records

Without a store a scan of records reads the overlay, which every accepted operation on a record
node brings up to date. An entry of the overlay changes only under a key its node had before
the batch or was given in it. When every record node has the id derived from its key before
and after the batch, the event of the batch names that key or leaves the keys open.
-/

namespace Primadb

variable {σ : Type} {op : Operation}

theorem Operation.at_iff {n : NodeId} {f : String} :
    op.at n f = true ↔ op.action.node = n ∧ op.action.field = f := by
  simp [Operation.at]

namespace Inner

variable {σ : Type}

/-- The keys noted for record nodes are the stored ones. -/
def KeysCurrent (inner : Inner σ) : Prop :=
  ∀ n, isRecordNodeId n = true → inner.recordOverlayNodeKeys[n]? = recordKeyAt inner.nodes n

section Refresh

variable (inner : Inner σ) {nodeId : NodeId}

/-- A refreshed record node has its stored key noted. -/
theorem refreshRecordOverlay_keys_self (h : isRecordNodeId nodeId = true) :
    (inner.refreshRecordOverlay nodeId).recordOverlayNodeKeys[nodeId]? =
      recordKeyAt inner.nodes nodeId := by
  simp only [refreshRecordOverlay, h, Bool.not_true, Bool.false_eq_true, if_false, recordKeyAt]
  cases hprevious : inner.recordOverlayNodeKeys[nodeId]? <;>
    cases hstate : inner.nodes[nodeId]? with
    | none => simp [hprevious]
    | some state => cases hkey : recordKeyFromNodeState state <;> simp [hprevious, hkey]

/-- Refreshing a node leaves what is noted for others. -/
theorem refreshRecordOverlay_keys_of_ne {n : NodeId} (hne : n ≠ nodeId) :
    (inner.refreshRecordOverlay nodeId).recordOverlayNodeKeys[n]? =
      inner.recordOverlayNodeKeys[n]? := by
  simp only [refreshRecordOverlay]
  split
  · rfl
  · cases hprevious : inner.recordOverlayNodeKeys[nodeId]? <;>
      cases hstate : inner.nodes[nodeId]? with
      | none => simp [hne.symm]
      | some state => cases hkey : recordKeyFromNodeState state <;> simp [hkey, hne.symm]

/-- A refresh leaves other keys alone. -/
theorem refreshRecordOverlay_overlay {q : String}
    (hold : isRecordNodeId nodeId = true → inner.recordOverlayNodeKeys[nodeId]? ≠ some q)
    (hnew : isRecordNodeId nodeId = true → recordKeyAt inner.nodes nodeId ≠ some q) :
    (inner.refreshRecordOverlay nodeId).recordOverlay[q]? = inner.recordOverlay[q]? := by
  simp only [refreshRecordOverlay]
  split
  · rfl
  · rename_i hrecord
    have hold := hold (by simpa using hrecord)
    have hnew := hnew (by simpa using hrecord)
    rw [recordKeyAt] at hnew
    cases hprevious : inner.recordOverlayNodeKeys[nodeId]? <;>
      cases hstate : inner.nodes[nodeId]? with
      | none => simp_all
      | some state => cases hkey : recordKeyFromNodeState state <;> simp_all

end Refresh

/-- What an operation does to the records: a refused one nothing, an accepted one a refresh of
its node. -/
theorem applyOperationInternal_records (inner : Inner σ) (op : Operation)
    (origin : OperationOrigin) :
    let applied := inner.applyOperationInternal op origin
    (applied.1 = false ∧ applied.2.recordOverlay = inner.recordOverlay ∧
      applied.2.recordOverlayNodeKeys = inner.recordOverlayNodeKeys ∧
      ∀ n, recordKeyAt applied.2.nodes n = recordKeyAt inner.nodes n) ∨
    (applied.1 = true ∧ applied.2.nodes = (applyToNodes inner.nodes op).1 ∧
      (slotAt inner.nodes op.action.node op.action.field).accepts op.slotOp = true ∧
      ∃ moved : Inner σ, moved.nodes = applied.2.nodes ∧
        moved.recordOverlay = inner.recordOverlay ∧
        moved.recordOverlayNodeKeys = inner.recordOverlayNodeKeys ∧
        applied.2.recordOverlay = (moved.refreshRecordOverlay op.action.node).recordOverlay ∧
        applied.2.recordOverlayNodeKeys =
          (moved.refreshRecordOverlay op.action.node).recordOverlayNodeKeys) := by
  intro applied
  have hdef : applied = inner.applyOperationInternal op origin := rfl
  rw [applyOperationInternal] at hdef
  split at hdef
  · have haccepts := applyToNodes_accepts inner.nodes op
    cases hacc : (slotAt inner.nodes op.action.node op.action.field).accepts op.slotOp with
    | false =>
      rw [hacc] at haccepts
      have hrefused : applied = (false, { inner with
          clock := inner.clock.observe op.revision
          nodes := (applyToNodes inner.nodes op).1 }) := by
        rw [hdef]
        simp only [applyAdmitted, haccepts, Bool.false_eq_true, if_false]
      rw [hrefused]
      refine Or.inl ⟨rfl, rfl, rfl, fun n => ?_⟩
      rw [recordKeyAt_eq, recordKeyAt_eq, slotAt_applyToNodes]
      split
      · rename_i hat
        obtain ⟨hn, hf⟩ := Operation.at_iff.mp hat
        rw [Slot.apply_of_not_accepts (hn ▸ hf ▸ hacc)]
      · rfl
    | true =>
      rw [hacc] at haccepts
      right
      let moved : Inner σ := { inner with
        clock := inner.clock.observe op.revision, nodes := (applyToNodes inner.nodes op).1 }
      obtain ⟨overlay, keys, heq⟩ := moved.refreshRecordOverlay_eq op.action.node
      have happlied : ∃ index unflushed pending, applied = (true,
          { moved.refreshRecordOverlay op.action.node with
            relationshipIndex := index, unflushedOps := unflushed, pendingOps := pending }) := by
        rw [hdef]
        simp only [applyAdmitted, haccepts, if_true]
        cases origin <;> exact ⟨_, _, _, rfl⟩
      obtain ⟨index, unflushed, pending, happlied⟩ := happlied
      have hnodes : applied.2.nodes = (applyToNodes inner.nodes op).1 := by
        rw [happlied, heq]
      rw [hnodes]
      exact ⟨by rw [happlied], rfl, rfl, moved, rfl, rfl, rfl, by rw [happlied], by rw [happlied]⟩
  · rw [hdef]
    exact Or.inl ⟨rfl, rfl, rfl, fun _ => rfl⟩

variable {inner : Inner σ} {op : Operation} {q : String}

/-- The stored key after an accepted operation: the one it assigns to the key field, or the old
one. -/
theorem recordKeyAt_applyToNodes {nodes : BTreeMap NodeId NodeState}
    (hacc : (slotAt nodes op.action.node op.action.field).accepts op.slotOp = true) (n : NodeId) :
    recordKeyAt (applyToNodes nodes op).1 n =
      if op.at n "key" then op.action.assignedKey else recordKeyAt nodes n := by
  rw [recordKeyAt_eq, slotAt_applyToNodes]
  split
  · rename_i hat
    obtain ⟨hn, hf⟩ := Operation.at_iff.mp hat
    exact Slot.recordKey_apply (hn ▸ hf ▸ hacc)
  · rw [recordKeyAt_eq]

/-- Operations keep the keys current. -/
theorem KeysCurrent.applyOperationInternal (h : inner.KeysCurrent) (op : Operation)
    (origin : OperationOrigin) :
    (inner.applyOperationInternal op origin).2.KeysCurrent := by
  intro n hn
  rcases inner.applyOperationInternal_records op origin with
    ⟨-, -, hkeys, hstored⟩ | ⟨-, hnodes, hacc, moved, hmoved, -, hnoted, -, hkeys⟩
  · rw [hkeys, hstored]
    exact h n hn
  · rw [hkeys]
    by_cases hself : n = op.action.node
    · subst hself
      rw [refreshRecordOverlay_keys_self _ hn, hmoved]
    · rw [refreshRecordOverlay_keys_of_ne _ hself, hnoted, h n hn, hnodes,
        recordKeyAt_applyToNodes hacc, if_neg]
      exact fun hat => hself (Operation.at_iff.mp hat).1.symm

/-- Apply operations one after another; the answer carries those that were accepted. -/
def applyBatch (inner : Inner σ) :
    List (Operation × OperationOrigin) → List Operation × Inner σ
  | [] => ([], inner)
  | (op, origin) :: batch =>
    let applied := inner.applyOperationInternal op origin
    let rest := applied.2.applyBatch batch
    (if applied.1 then op :: rest.1 else rest.1, rest.2)

/-- An operation assigns a key to its record node, or its node had the key. -/
def Explains (nodes : BTreeMap NodeId NodeState) (q : String) (op : Operation) : Prop :=
  isRecordNodeId op.action.node = true ∧
    (op.action.field = "key" ∧ op.action.assignedKey = some q ∨
      recordKeyAt nodes op.action.node = some q)

/-- A key that is stored was there or is explained. -/
theorem Explains.of_stored {origin : OperationOrigin} {n : NodeId} (hn : isRecordNodeId n = true)
    (hq : recordKeyAt (inner.applyOperationInternal op origin).2.nodes n = some q) :
    recordKeyAt inner.nodes n = some q ∨
      (inner.applyOperationInternal op origin).1 = true ∧ Explains inner.nodes q op := by
  rcases inner.applyOperationInternal_records op origin with
    ⟨-, -, -, hstored⟩ | ⟨htrue, hnodes, hacc, -⟩
  · exact Or.inl (hstored n ▸ hq)
  · rw [hnodes, recordKeyAt_applyToNodes hacc] at hq
    split at hq
    · rename_i hat
      obtain ⟨hnode, hfield⟩ := Operation.at_iff.mp hat
      exact Or.inr ⟨htrue, hnode ▸ hn, Or.inl ⟨hfield, hq⟩⟩
    · exact Or.inl hq

/-- What only explained operations change is changed by a batch only when an accepted operation
explains the key. -/
theorem applyBatch_explains {β : Type} {f : Inner σ → β}
    (hstep : ∀ (inner : Inner σ) (op : Operation) (origin : OperationOrigin), inner.KeysCurrent →
      f (inner.applyOperationInternal op origin).2 ≠ f inner →
      (inner.applyOperationInternal op origin).1 = true ∧ Explains inner.nodes q op)
    (h : inner.KeysCurrent) (batch : List (Operation × OperationOrigin))
    (hchanged : f (inner.applyBatch batch).2 ≠ f inner) :
    ∃ op ∈ (inner.applyBatch batch).1, Explains inner.nodes q op := by
  induction batch generalizing inner with
  | nil => exact absurd rfl hchanged
  | cons first batch ih =>
    obtain ⟨op, origin⟩ := first
    simp only [applyBatch] at hchanged ⊢
    -- the first operation explains the key, or a later one does
    suffices hcases : (inner.applyOperationInternal op origin).1 = true ∧
        Explains inner.nodes q op ∨
        ∃ other ∈ ((inner.applyOperationInternal op origin).2.applyBatch batch).1,
          Explains inner.nodes q other by
      rcases hcases with ⟨htrue, hexplains⟩ | ⟨other, hother, hexplains⟩
      · exact ⟨op, by simp [htrue], hexplains⟩
      · refine ⟨other, ?_, hexplains⟩
        split
        · exact List.mem_cons_of_mem _ hother
        · exact hother
    by_cases hsame : f (inner.applyOperationInternal op origin).2 = f inner
    · obtain ⟨other, hother, hrecord, hassigns | hq⟩ :=
        ih (h.applyOperationInternal op origin) (by rwa [hsame])
      · exact Or.inr ⟨other, hother, hrecord, Or.inl hassigns⟩
      · rcases Explains.of_stored hrecord hq with hq | hexplains
        · exact Or.inr ⟨other, hother, hrecord, Or.inr hq⟩
        · exact Or.inl hexplains
    · exact Or.inl (hstep inner op origin h hsame)

private theorem applyOperationInternal_overlay (h : inner.KeysCurrent) (op : Operation)
    (origin : OperationOrigin)
    (hchanged : (inner.applyOperationInternal op origin).2.recordOverlay[q]? ≠
      inner.recordOverlay[q]?) :
    (inner.applyOperationInternal op origin).1 = true ∧ Explains inner.nodes q op := by
  rcases inner.applyOperationInternal_records op origin with
    ⟨-, hoverlay, -⟩ | ⟨htrue, -, -, moved, hmoved, hold, hnoted, hnew, -⟩
  · exact absurd (by rw [hoverlay]) hchanged
  · refine ⟨htrue, ?_⟩
    by_contra hnone
    refine hchanged ?_
    rw [hnew, ← hold]
    refine refreshRecordOverlay_overlay moved (fun hrecord hq => ?_) fun hrecord hq => ?_
    · rw [hnoted, h _ hrecord] at hq
      exact hnone ⟨hrecord, Or.inr hq⟩
    · rw [hmoved] at hq
      rcases Explains.of_stored hrecord hq with hq | ⟨-, hexplains⟩
      · exact hnone ⟨hrecord, Or.inr hq⟩
      · exact hnone hexplains

private theorem applyBatch_overlay (h : inner.KeysCurrent)
    (batch : List (Operation × OperationOrigin))
    (hchanged : (inner.applyBatch batch).2.recordOverlay[q]? ≠ inner.recordOverlay[q]?) :
    ∃ op ∈ (inner.applyBatch batch).1, Explains inner.nodes q op :=
  applyBatch_explains (f := fun inner => inner.recordOverlay[q]?)
    (fun _ op origin h hchanged => applyOperationInternal_overlay h op origin hchanged) h batch
    hchanged

/-- When a batch changes the key field of a node, the last accepted operation on it decides. -/
theorem applyBatch_lastKey (batch : List (Operation × OperationOrigin))
    (hop : op ∈ (inner.applyBatch batch).1) (hfield : op.action.field = "key") :
    ∃ last ∈ (inner.applyBatch batch).1, last.at op.action.node "key" = true ∧
      recordKeyAt (inner.applyBatch batch).2.nodes op.action.node =
        last.action.assignedKey := by
  -- a batch without accepted operations on a key field keeps the key
  have hkeeps : ∀ (batch : List (Operation × OperationOrigin)) (inner : Inner σ) (n : NodeId),
      (∀ other ∈ (inner.applyBatch batch).1, other.at n "key" = false) →
      recordKeyAt (inner.applyBatch batch).2.nodes n = recordKeyAt inner.nodes n := by
    intro batch
    induction batch with
    | nil => exact fun _ _ _ => rfl
    | cons first batch ih =>
      intro inner n hnone
      obtain ⟨other, origin⟩ := first
      simp only [applyBatch] at hnone ⊢
      rcases inner.applyOperationInternal_records other origin with
        ⟨hfalse, -, -, hstored⟩ | ⟨htrue, hnodes, hacc, -⟩
      · simp only [hfalse, Bool.false_eq_true, if_false] at hnone
        rw [ih _ n hnone, hstored]
      · simp only [htrue, if_true, List.mem_cons, forall_eq_or_imp] at hnone
        rw [ih _ n hnone.2, hnodes, recordKeyAt_applyToNodes hacc, hnone.1]
        rfl
  induction batch generalizing inner op with
  | nil => cases hop
  | cons first batch ih =>
    obtain ⟨other, origin⟩ := first
    simp only [applyBatch] at hop ⊢
    by_cases hlater : ∃ next ∈ ((inner.applyOperationInternal other origin).2.applyBatch batch).1,
        next.at op.action.node "key" = true
    · obtain ⟨next, hnext, hat⟩ := hlater
      obtain ⟨hnode, hkey⟩ := Operation.at_iff.mp hat
      obtain ⟨last, hlast, hlastAt, hstored⟩ := ih hnext hkey
      rw [hnode] at hlastAt hstored
      refine ⟨last, ?_, hlastAt, hstored⟩
      split
      · exact List.mem_cons_of_mem _ hlast
      · exact hlast
    · push Not at hlater
      have hnone : ∀ next ∈ ((inner.applyOperationInternal other origin).2.applyBatch batch).1,
          next.at op.action.node "key" = false := fun next hnext =>
        Bool.eq_false_iff.mpr (hlater next hnext)
      rw [hkeeps _ _ _ hnone]
      have hopAt : op.at op.action.node "key" = true := Operation.at_iff.mpr ⟨rfl, hfield⟩
      rcases inner.applyOperationInternal_records other origin with
        ⟨hfalse, -⟩ | ⟨htrue, hnodes, hacc, -⟩
      · simp only [hfalse, Bool.false_eq_true, if_false] at hop
        exact absurd hopAt (hlater op hop)
      · simp only [htrue, if_true, List.mem_cons] at hop ⊢
        rcases hop with rfl | hop
        · refine ⟨op, Or.inl rfl, hopAt, ?_⟩
          rw [hnodes, recordKeyAt_applyToNodes hacc, if_pos hopAt]
        · exact absurd hopAt (hlater op hop)

end Inner

namespace Inner

variable {σ : Type}

/-- A refreshed node keeps the noted keys current when the others were. -/
theorem KeysCurrent.refresh {inner : Inner σ} {nodeId : NodeId}
    (h : ∀ n, n ≠ nodeId → isRecordNodeId n = true →
      inner.recordOverlayNodeKeys[n]? = recordKeyAt inner.nodes n) :
    (inner.refreshRecordOverlay nodeId).KeysCurrent := by
  intro n hn
  obtain ⟨overlay, keys, heq⟩ := inner.refreshRecordOverlay_eq nodeId
  have hnodes : (inner.refreshRecordOverlay nodeId).nodes = inner.nodes := by rw [heq]
  rw [hnodes]
  by_cases hself : n = nodeId
  · subst hself
    exact inner.refreshRecordOverlay_keys_self hn
  · rw [inner.refreshRecordOverlay_keys_of_ne hself]
    exact h n hself hn

private theorem foldl_refreshRecordOverlay (nodeIds : List NodeId) (inner : Inner σ)
    (hrecords : ∀ n ∈ nodeIds, isRecordNodeId n = true) :
    (nodeIds.foldl refreshRecordOverlay inner).nodes = inner.nodes ∧
      ∀ n, (nodeIds.foldl refreshRecordOverlay inner).recordOverlayNodeKeys[n]? =
        if n ∈ nodeIds then recordKeyAt inner.nodes n else inner.recordOverlayNodeKeys[n]? := by
  induction nodeIds using List.reverseRecOn with
  | nil => exact ⟨rfl, fun n => rfl⟩
  | append_singleton nodeIds nodeId ih =>
    obtain ⟨hnodes, hkeys⟩ := ih fun n hn => hrecords n (List.mem_append_left _ hn)
    rw [List.foldl_append]
    obtain ⟨overlay, keys, heq⟩ :=
      (nodeIds.foldl refreshRecordOverlay inner).refreshRecordOverlay_eq nodeId
    refine ⟨?_, fun n => ?_⟩
    · rw [List.foldl_cons, List.foldl_nil, heq]
      exact hnodes
    · rw [List.foldl_cons, List.foldl_nil]
      by_cases hself : n = nodeId
      · subst hself
        rw [refreshRecordOverlay_keys_self _ (hrecords n (by simp)), hnodes, if_pos (by simp)]
      · rw [refreshRecordOverlay_keys_of_ne _ hself, hkeys]
        simp [hself]

/-- A rebuilt overlay has the stored keys noted. -/
theorem keysCurrent_rebuildRecordOverlay (inner : Inner σ) :
    inner.rebuildRecordOverlay.KeysCurrent := by
  intro n hn
  obtain ⟨hnodes, hkeys⟩ := foldl_refreshRecordOverlay (inner.nodes.keys.filter isRecordNodeId)
    { inner with recordOverlay := ∅, recordOverlayNodeKeys := ∅ }
    (fun n hn => (List.mem_filter.mp hn).2)
  rw [rebuildRecordOverlay, hnodes, hkeys]
  split
  · rfl
  · rename_i hmem
    have hnone : inner.nodes[n]? = none := Std.ExtTreeMap.getElem?_eq_none fun h =>
      hmem (List.mem_filter.mpr ⟨Std.ExtTreeMap.mem_keys.mpr h, hn⟩)
    simp [recordKeyAt, hnone]

/-- An applied node state keeps the noted keys current. -/
theorem KeysCurrent.applyNodeState {inner : Inner σ} (h : inner.KeysCurrent) (state : NodeState) :
    (inner.applyNodeState state).KeysCurrent := by
  have hrefresh : ((inner.mergeState state).refreshRecordOverlay state.id).KeysCurrent := by
    refine KeysCurrent.refresh fun n hne hn => ?_
    change inner.recordOverlayNodeKeys[n]? = recordKeyAt (mergeNodeState inner.nodes state) n
    rw [recordKeyAt_eq, slotAt_mergeNodeState, if_neg hne.symm, ← recordKeyAt_eq]
    exact h n hn
  exact hrefresh

/-- The state change of `load_snapshot`; scheduled fetches lie outside the state. -/
def loadSnapshot (inner : Inner σ) (snapshot : DatabaseSnapshot) : Inner σ :=
  let inner := { inner with clock := snapshot.clock, nodes := snapshot.nodes }.rebuildRecordOverlay
  { inner with
    pendingOps := .fromOperations snapshot.pendingOps
    scopePolicies := snapshot.scopePolicies
    unflushedOps := .empty
    missingNodes := ∅ }.rebuildRelationshipIndex

private theorem keysCurrent_loadSnapshot (inner : Inner σ) (snapshot : DatabaseSnapshot) :
    (inner.loadSnapshot snapshot).KeysCurrent := by
  obtain ⟨index, heq⟩ := rebuildRelationshipIndex_eq
    { { inner with clock := snapshot.clock, nodes := snapshot.nodes }.rebuildRecordOverlay with
      pendingOps := .fromOperations snapshot.pendingOps
      scopePolicies := snapshot.scopePolicies
      unflushedOps := .empty
      missingNodes := ∅ }
  rw [loadSnapshot, heq]
  exact keysCurrent_rebuildRecordOverlay
    { inner with clock := snapshot.clock, nodes := snapshot.nodes }

end Inner

/-- What changes the nodes of a database without a store. -/
inductive RecordsEvent where
  /-- An operation arrives or is issued. -/
  | apply (op : Operation) (origin : OperationOrigin)
  | loadSnapshot (snapshot : DatabaseSnapshot)
  /-- A snapshot is merged. -/
  | mergeSnapshot (snapshot : DatabaseSnapshot)
  /-- A node state is applied. -/
  | nodeState (state : NodeState)

/-- One change. -/
def RecordsEvent.step {σ : Type} (inner : Inner σ) : RecordsEvent → Inner σ
  | .apply op origin => (inner.applyOperationInternal op origin).2
  | .loadSnapshot snapshot => inner.loadSnapshot snapshot
  | .mergeSnapshot snapshot => inner.mergeSnapshotIntoInner snapshot
  | .nodeState state => inner.applyNodeState state

/-- Every change keeps the noted keys current. -/
theorem RecordsEvent.keysCurrent_step (inner : Inner σ) (event : RecordsEvent)
    (h : inner.KeysCurrent) : (event.step inner).KeysCurrent := by
  cases event with
  | apply op origin => exact h.applyOperationInternal op origin
  | loadSnapshot snapshot => exact inner.keysCurrent_loadSnapshot snapshot
  | mergeSnapshot snapshot => exact Inner.keysCurrent_rebuildRecordOverlay _
  | nodeState state => exact h.applyNodeState state

/-- The result of a scan. -/
structure RecordScanResult where
  /-- The records in the order of the scan. -/
  entries : List RecordEntry
  /-- Where the next page starts. -/
  nextCursor : Option String
  deriving DecidableEq

/-- `record_scan_result`. -/
def recordScanResult (entries : List RecordEntry) (scan : RecordScan) : RecordScanResult :=
  let entries := entries.mergeSort fun left right => decide (left.key ≤ right.key)
  let entries := if scan.reverse then entries.reverse else entries
  match scan.limit with
  | none => ⟨entries, none⟩
  | some limit =>
    if limit < entries.length then
      ⟨entries.take limit,
        ((entries.take limit).getLast?.or (entries.drop limit).head?).map RecordEntry.key⟩
    else ⟨entries, none⟩

/-- `scan_records` on a database without a store. -/
def Inner.scanRecords {σ : Type} (inner : Inner σ) (scan : RecordScan) : RecordScanResult :=
  recordScanResult (Program.recordEntriesPage scan [] inner.recordOverlay) scan

/-- A page of a scan reads the overlay under the keys it selects. -/
theorem recordEntriesPage_congr {before after : BTreeMap String (Option RecordEntry)}
    {scan : RecordScan} {stored : List RecordEntry}
    (h : ∀ q, scan.matchesKey q = true → after[q]? = before[q]?) :
    Program.recordEntriesPage scan stored after =
      Program.recordEntriesPage scan stored before := by
  have hfilter : after.filter (fun q _ => scan.matchesKey q) =
      before.filter fun q _ => scan.matchesKey q := by
    refine Std.ExtTreeMap.ext_getElem? fun q => ?_
    rw [Std.ExtTreeMap.getElem?_filter', Std.ExtTreeMap.getElem?_filter']
    cases hq : scan.matchesKey q with
    | true => rw [h q hq]
    | false => simp
  have hlist := congrArg Std.ExtTreeMap.toList hfilter
  rw [Std.ExtTreeMap.toList_filter, Std.ExtTreeMap.toList_filter] at hlist
  simp only [Program.recordEntriesPage]
  rw [← List.foldl_filter, ← List.foldl_filter, hlist]

private theorem Inner.scanRecords_congr {before after : Inner σ} {scan : RecordScan}
    (h : ∀ q, scan.matchesKey q = true → after.recordOverlay[q]? = before.recordOverlay[q]?) :
    after.scanRecords scan = before.scanRecords scan := by
  rw [scanRecords, scanRecords, recordEntriesPage_congr h]

/-- Every record node has the id derived from the key it stores. -/
def Inner.RecordsWf [Blake3] {σ : Type} (inner : Inner σ) : Prop :=
  ∀ n q, isRecordNodeId n = true → recordKeyAt inner.nodes n = some q → n = recordNodeId q

/-- Record nodes are well formed when all nodes of the list are. -/
theorem Inner.recordsWf_of_all [Blake3] {inner : Inner σ}
    (h : ∀ entry ∈ inner.nodes.toList, (recordKeyFromNodeState entry.2).all
      (fun q => decide (entry.1 = recordNodeId q)) = true) : inner.RecordsWf := by
  intro n q _ hq
  obtain ⟨state, hstate, hkey⟩ := Option.bind_eq_some_iff.mp hq
  have hentry := h (n, state) (Std.ExtTreeMap.mem_toList_iff_getElem?_eq_some.mpr hstate)
  rw [hkey] at hentry
  simpa using hentry

/-- A key that an accepted operation explains is named by the event, when the event names keys. -/
theorem Inner.Explains.touched [Blake3] (hinjective : Function.Injective Blake3.hash)
    {inner : Inner σ} {batch : List (Operation × OperationOrigin)} (hbefore : inner.RecordsWf)
    (hafter : (inner.applyBatch batch).2.RecordsWf) {q : String}
    (hop : op ∈ (inner.applyBatch batch).1) (h : Explains inner.nodes q op)
    (hall : ∀ op ∈ (inner.applyBatch batch).1, operationIsRecordOp op = true →
      operationTouchedRecordKey op (inner.applyBatch batch).2.nodes ≠ none) :
    ∃ op ∈ (inner.applyBatch batch).1, operationIsRecordOp op = true ∧
      operationTouchedRecordKey op (inner.applyBatch batch).2.nodes = some q := by
  obtain ⟨hrecord, ⟨hfield, hkey⟩ | hstored⟩ := h
  · refine ⟨op, hop, hrecord, ?_⟩
    rw [operationTouchedRecordKey_eq hrecord, if_pos hfield, hkey, Option.some_or]
  -- the node had the key before, and its id allows no other key after the batch
  have hnode := hbefore _ _ hrecord hstored
  have hunique : ∀ q', recordKeyAt (inner.applyBatch batch).2.nodes op.action.node = some q' →
      q' = q := by
    intro q' hq'
    have hid := (hafter _ _ hrecord hq').symm.trans hnode
    exact hinjective (String.append_right_inj _ |>.mp hid)
  by_cases hfield : op.action.field = "key"
  · obtain ⟨last, hlast, hat, hlastKey⟩ := applyBatch_lastKey batch hop hfield
    obtain ⟨hlastNode, hlastField⟩ := Operation.at_iff.mp hat
    have hlastRecord : isRecordNodeId last.action.node = true := hlastNode ▸ hrecord
    have hknown := hall last hlast hlastRecord
    rw [operationTouchedRecordKey_eq hlastRecord, if_pos hlastField, hlastNode, hlastKey,
      Option.or_self] at hknown
    obtain ⟨q', hq'⟩ := Option.ne_none_iff_exists'.mp hknown
    refine ⟨last, hlast, hlastRecord, ?_⟩
    rw [operationTouchedRecordKey_eq hlastRecord, if_pos hlastField, hlastNode, hlastKey,
      Option.or_self, hq', hunique q' (hlastKey.trans hq')]
  · have hknown := hall op hop hrecord
    rw [operationTouchedRecordKey_eq hrecord, if_neg hfield] at hknown
    obtain ⟨q', hq'⟩ := Option.ne_none_iff_exists'.mp hknown
    refine ⟨op, hop, hrecord, ?_⟩
    rw [operationTouchedRecordKey_eq hrecord, if_neg hfield, hq', hunique q' hq']

/-- An event of all accepted operations overlaps every watch of a key that one of them
explains. -/
theorem Inner.Explains.recordKeysOverlap [Blake3] (hinjective : Function.Injective Blake3.hash)
    {inner : Inner σ} {batch : List (Operation × OperationOrigin)} (hbefore : inner.RecordsWf)
    (hafter : (inner.applyBatch batch).2.RecordsWf) {q : String}
    (hop : op ∈ (inner.applyBatch batch).1) (h : Explains inner.nodes q op) {ops : List Operation}
    (hops : (inner.applyBatch batch).1 ⊆ ops) {selects : String → Bool}
    (hselects : selects q = true) (revision pending : ℕ) :
    recordKeysOverlap selects
      ⟨revision, pending, ChangeImpact.fromOps ops (inner.applyBatch batch).2.nodes⟩ = true := by
  refine recordKeysOverlap_iff.mpr (Or.inr ⟨List.any_eq_true.mpr ⟨op, hops hop, h.1⟩, ?_⟩)
  by_cases hall : ∀ op ∈ ops, operationIsRecordOp op = true →
      operationTouchedRecordKey op (inner.applyBatch batch).2.nodes ≠ none
  · obtain ⟨other, hother, htouched⟩ :=
      h.touched hinjective hbefore hafter hop fun op hop => hall op (hops hop)
    exact Or.inr ⟨q, ChangeImpact.mem_touchedRecordKeys.mpr ⟨hall, other, hops hother, htouched⟩,
      hselects⟩
  · -- a key that is not known leaves the list of keys empty
    refine Or.inl (List.eq_nil_iff_forall_not_mem.mpr fun key hkey => ?_)
    exact hall (ChangeImpact.mem_touchedRecordKeys.mp hkey).1

/-- In every database without a store, a batch that changes the result of a scan and keeps the
record nodes well formed gives an event that overlaps the scan. -/
theorem record_watch_misses_nothing [Blake3] (hinjective : Function.Injective Blake3.hash)
    {σ : Type} (replicaId : String) (wall : WallClock) (policies : BTreeMap String ScopePolicy)
    (limits : PrimadbLimits) (events : List RecordsEvent)
    (batch : List (Operation × OperationOrigin)) (scan : RecordScan) (revision pending : ℕ) :
    let before := events.foldl RecordsEvent.step
      (Inner.configured (σ := σ) replicaId wall policies limits)
    let after := before.applyBatch batch
    before.RecordsWf → after.2.RecordsWf → after.2.scanRecords scan ≠ before.scanRecords scan →
      recordWatchChangeOverlaps scan
        ⟨revision, pending, ChangeImpact.fromOps after.1 after.2.nodes⟩ = true := by
  intro before after hbefore hafter hresult
  have hcurrent : before.KeysCurrent :=
    Run.invariant RecordsEvent.keysCurrent_step (fun n _ => by
      simp [Inner.configured, Inner.withReplicaId, recordKeyAt]) events
  obtain ⟨q, hselects, hchanged⟩ : ∃ q, scan.matchesKey q = true ∧
      after.2.recordOverlay[q]? ≠ before.recordOverlay[q]? := by
    by_contra hnone
    push Not at hnone
    exact hresult (Inner.scanRecords_congr hnone)
  obtain ⟨op, hop, hexplains⟩ := Inner.applyBatch_overlay hcurrent batch hchanged
  exact hexplains.recordKeysOverlap hinjective hbefore hafter hop (fun _ h => h) hselects
    revision pending

/-- The operations of a put record. -/
def putRecordBatch : List (Operation × OperationOrigin) :=
  [(⟨"b/set/1-0-1", "b", ⟨1, 0, "b"⟩,
      .setField "__primadb_records/k" "key" (.scalar (.string "k"))⟩, .remote),
    (⟨"b/set/1-1-2", "b", ⟨1, 1, "b"⟩,
      .setField "__primadb_records/k" "value" (.scalar .null)⟩, .remote)]

/-- A put record is in the scan of its key only afterwards, and its event overlaps the scan. -/
theorem record_watch_misses_nothing_put :
    let before := Inner.withReplicaId (σ := Unit) "a" ⟨fun _ => 0, 0⟩
    let after := before.applyBatch putRecordBatch
    after.2.scanRecords (ChangeEvent.prefixScan "k") ≠
        before.scanRecords (ChangeEvent.prefixScan "k") ∧
      recordWatchChangeOverlaps (ChangeEvent.prefixScan "k")
        ⟨1, 0, ChangeImpact.fromOps after.1 after.2.nodes⟩ = true := by
  intro before after
  have hresult : after.2.scanRecords (ChangeEvent.prefixScan "k") ≠
      before.scanRecords (ChangeEvent.prefixScan "k") := by decide +kernel
  refine ⟨hresult, ?_⟩
  exact @record_watch_misses_nothing plainHash (fun _ _ h => h) Unit "a" ⟨fun _ => 0, 0⟩ ∅
    before.limits [] putRecordBatch (ChangeEvent.prefixScan "k") 1 0
    (@Inner.recordsWf_of_all _ plainHash _ (by decide +kernel))
    (@Inner.recordsWf_of_all _ plainHash _ (by decide +kernel)) hresult

end Primadb
