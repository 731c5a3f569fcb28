import Primadb.Db.Mutation
import Primadb.Db.SearchRecords
import Primadb.Db.StoredScan
import Primadb.Db.Revision

/-!
# Point reads and scans of records

A point read goes to the node whose id is derived from the key; a scan goes through the overlay,
which is filled by the keys stored in the nodes. Both see the same records as long as every record
node stores the key its id is derived from.
-/

namespace Primadb

section Refresh

variable {σ : Type} {inner : Inner σ}

private theorem Inner.refreshRecordOverlay_overlay_self {nodeId : NodeId} {q : String}
    (hrecord : isRecordNodeId nodeId = true) (hkey : recordKeyAt inner.nodes nodeId = some q) :
    (inner.refreshRecordOverlay nodeId).recordOverlay[q]? =
      some (inner.nodes[nodeId]?.bind recordEntryFromNodeState) := by
  obtain ⟨state, hstate, hread⟩ := Option.bind_eq_some_iff.mp hkey
  simp only [refreshRecordOverlay, hrecord, Bool.not_true, Bool.false_eq_true, if_false]
  cases inner.recordOverlayNodeKeys[nodeId]? <;> simp [hstate, hread]

variable [Blake3]

private theorem isRecordNodeId_recordNodeId (key : String) :
    isRecordNodeId (recordNodeId key) = true :=
  startsWith_append _ _

/-- Different keys have different record nodes. -/
theorem recordNodeId_injective (hinjective : Function.Injective Blake3.hash) :
    Function.Injective recordNodeId :=
  fun _ _ heq => hinjective ((String.append_right_inj _).mp heq)

end Refresh

section Commands

variable [Blake3]

/-- Commands among which are those of record batches. -/
structure Command.AllowsRecords (allowed : Command → Prop) : Prop where
  /-- Nodes are loaded. -/
  load : ∀ node, allowed (.load node)
  /-- Nodes are read. -/
  state : ∀ node, allowed (.state node)
  /-- The overlay is read. -/
  overlay : allowed .overlay
  /-- Stored records are read. -/
  storedRecords : ∀ scan, allowed (.storedRecords scan)
  /-- The key of a record is written to its node. -/
  key : ∀ key, allowed (.apply (.setField (recordNodeId key) "key" (.scalar (.string key))))
  /-- The value of a record is written to its node. -/
  value : ∀ key value,
    allowed (.apply (.setField (recordNodeId key) "value" (Program.recordOperationValue value)))
  /-- The value of a record is deleted. -/
  delete : ∀ key, allowed (.apply (.deleteField (recordNodeId key) "value"))

namespace Command.AllowsRecords

variable {allowed : Command → Prop}

/-- Scanning records takes reading commands only. -/
theorem recordEntriesForScan (h : AllowsRecords allowed) (fuel : ℕ) (scan : RecordScan) :
    Script.Only allowed (Program.recordEntriesForScan fuel scan) := by
  have hpages : ∀ (limit fuel : ℕ) (page : RecordScan) (stored : List RecordEntry),
      Script.Only allowed (Program.recordEntriesPages scan limit fuel page stored) := by
    intro limit fuel
    induction fuel with
    | zero => exact fun page stored => (Script.only_issue h.overlay).bind fun _ => trivial
    | succ fuel ih =>
      intro page stored
      refine (Script.only_issue (h.storedRecords page)).bind fun found => ?_
      refine (Script.only_issue h.overlay).bind fun overlay => ?_
      dsimp only
      split
      · exact trivial
      · split
        · exact trivial
        · exact ih _ _
  rw [Program.recordEntriesForScan]
  split
  · exact (Script.only_issue (h.storedRecords scan)).bind fun _ =>
      (Script.only_issue h.overlay).bind fun _ => trivial
  · exact hpages _ _ _ _

/-- A record batch takes these commands only. -/
theorem recordBatch (h : AllowsRecords allowed) (fuel : ℕ) (batch : RecordBatch) :
    Script.Only allowed (Program.recordBatch fuel batch) := by
  have hdelete : ∀ key, Script.Only allowed (Program.deleteRecord key) := fun key =>
    (Script.only_issue (h.key key)).bind fun _ => Script.only_issue (h.delete key)
  refine Script.Only.bind (Script.Only.forM _ fun check _ => ?_) fun _ =>
    Script.Only.forM _ fun mutation _ => ?_
  · have hread : ∀ key, Script.Only allowed (Program.recordEntry key) := fun key =>
      (Script.only_issue (h.load _)).bind fun _ => (Script.only_issue (h.state _)).bind
        fun _ => trivial
    cases check with
    | «exists» key | absent key | value key value =>
      refine (hread key).bind fun entry => ?_
      split <;> exact trivial
  · cases mutation with
    | put key value =>
      exact (Script.only_issue (h.key key)).bind fun _ => Script.only_issue (h.value key value)
    | delete key => exact hdelete key
    | deleteRange scan =>
      refine (h.recordEntriesForScan fuel scan).bind fun entries => ?_
      induction entries with
      | nil => exact trivial
      | cons entry entries ih => exact (hdelete entry.key).bind fun _ => ih

end Command.AllowsRecords

end Commands

section Agree

variable {σ : Type} {inner : Inner σ}

private theorem Inner.refreshRecordOverlay_overlay_none {nodeId : NodeId}
    (hrecord : isRecordNodeId nodeId = true) (hkey : recordKeyAt inner.nodes nodeId = none)
    (q : String) :
    (inner.refreshRecordOverlay nodeId).recordOverlay[q]? =
      if inner.recordOverlayNodeKeys[nodeId]? = some q then none else inner.recordOverlay[q]? := by
  rw [recordKeyAt] at hkey
  simp only [refreshRecordOverlay, hrecord, Bool.not_true, Bool.false_eq_true, if_false]
  cases hprevious : inner.recordOverlayNodeKeys[nodeId]? with
  | none =>
    cases hstate : inner.nodes[nodeId]? with
    | none => simp
    | some state => simp_all
  | some previous =>
    cases hstate : inner.nodes[nodeId]? with
    | none => simp [BTreeMap.get_erase]
    | some state =>
      have hnone : recordKeyFromNodeState state = none := by simpa [hstate] using hkey
      simp [hnone, BTreeMap.get_erase]

variable [Blake3]

/-- A node with the key its id is derived from is read as its record. -/
theorem Inner.recordEntry_of_key {q : String}
    (h : recordKeyAt inner.nodes (recordNodeId q) = some q) :
    inner.recordEntry q = inner.nodes[recordNodeId q]?.bind recordEntryFromNodeState := by
  obtain ⟨state, hstate, hkey⟩ := Option.bind_eq_some_iff.mp h
  rw [recordEntry, hstate, Option.bind_some]
  cases hentry : recordEntryFromNodeState state with
  | none => rfl
  | some entry =>
    have hsame : entry.key = q := by
      rw [recordEntryFromNodeState, hkey] at hentry
      dsimp only at hentry
      split at hentry <;> cases hentry <;> rfl
    rw [Option.filter_some, if_pos (by simpa using hsame)]

/-- Point reads and the overlay see the same records. -/
structure Inner.RecordsAgree (inner : Inner σ) : Prop where
  /-- The noted keys are the stored ones. -/
  keys : inner.KeysCurrent
  /-- Record nodes store the keys their ids are derived from. -/
  records : inner.RecordsWf
  /-- The overlay holds what is read. -/
  agree : ∀ q, inner.recordOverlay[q]?.join = inner.recordEntry q

namespace Inner.RecordsAgree

private theorem congr {other : Inner σ} (h : inner.RecordsAgree)
    (hnodes : other.nodes = inner.nodes) (hoverlay : other.recordOverlay = inner.recordOverlay)
    (hkeys : other.recordOverlayNodeKeys = inner.recordOverlayNodeKeys) : other.RecordsAgree where
  keys n hn := by
    rw [hkeys, hnodes]
    exact h.keys n hn
  records n q hn hq := h.records n q hn (hnodes ▸ hq)
  agree q := by
    rw [hoverlay, recordEntry, hnodes]
    exact h.agree q

/-- An operation that keeps keys keeps point reads and overlay in agreement. -/
theorem applyOperationInternal (hinjective : Function.Injective Blake3.hash)
    (h : inner.RecordsAgree) {op : Operation} (hkeeps : op.KeepsKey) (origin : OperationOrigin) :
    (inner.applyOperationInternal op origin).2.RecordsAgree := by
  have hkeys := h.keys.applyOperationInternal op origin
  have hrecords : (inner.applyOperationInternal op origin).2.RecordsWf :=
    h.records.applyBatch [(op, origin)] fun entry hentry => by
      rw [List.mem_singleton.mp hentry]
      exact hkeeps
  refine ⟨hkeys, hrecords, fun q => ?_⟩
  have hrecord := isRecordNodeId_recordNodeId q
  -- a record that is not at the node of the operation is read as before
  have hread : ((inner.applyOperationInternal op origin).1 = true →
      op.action.node ≠ recordNodeId q) →
        (inner.applyOperationInternal op origin).2.recordEntry q = inner.recordEntry q := by
    intro hne
    by_contra hchanged
    obtain ⟨haccepted, hop, ⟨hfield, hassigned⟩ | hstored⟩ :=
      applyOperationInternal_recordEntry op origin hchanged
    · exact hne haccepted (hkeeps hfield hop q hassigned)
    · exact hne haccepted (h.records _ q hop hstored)
  rcases inner.applyOperationInternal_records op origin with
    ⟨hrefused, hoverlay, -⟩ | ⟨-, -, -, moved, hnodes, hoverlay, hnoted, hnew, -⟩
  · rw [hoverlay, h.agree, hread fun haccepted => by rw [hrefused] at haccepted; cases haccepted]
  · by_cases hnode : op.action.node = recordNodeId q
    · rw [hnew, hnode]
      cases hkey : recordKeyAt moved.nodes (recordNodeId q) with
      | some key =>
        have hq : key = q := (recordNodeId_injective hinjective
          (hrecords _ key hrecord (hnodes ▸ hkey))).symm
        subst hq
        rw [refreshRecordOverlay_overlay_self hrecord hkey, recordEntry_of_key (hnodes ▸ hkey),
          hnodes]
        rfl
      | none =>
        have hgone : (inner.applyOperationInternal op origin).2.recordEntry q = none := by
          rw [← Option.not_isSome_iff_eq_none]
          intro hsome
          obtain ⟨entry, hentry⟩ := Option.isSome_iff_exists.mp hsome
          have hstored := recordKeyAt_of_recordEntry hentry
          rw [← hnodes, hkey] at hstored
          cases hstored
        rw [refreshRecordOverlay_overlay_none hrecord hkey, hgone, hnoted, hoverlay,
          h.keys _ hrecord]
        split
        · rfl
        · rename_i hbefore
          rw [h.agree, ← Option.not_isSome_iff_eq_none]
          intro hsome
          obtain ⟨entry, hentry⟩ := Option.isSome_iff_exists.mp hsome
          exact hbefore (recordKeyAt_of_recordEntry hentry)
    · rw [hnew, hread fun _ => hnode, ← h.agree, refreshRecordOverlay_overlay, hoverlay]
      · intro hop hprevious
        rw [hnoted, h.keys _ hop] at hprevious
        exact hnode (h.records _ q hop hprevious)
      · intro hop hcurrent
        exact hnode (hrecords _ q hop (hnodes ▸ hcurrent))

end Inner.RecordsAgree

private theorem Inner.recordsAgree_configured (replicaId : String) (wall : WallClock)
    (policies : BTreeMap String ScopePolicy) (limits : PrimadbLimits) :
    (Inner.configured (σ := σ) replicaId wall policies limits).RecordsAgree where
  keys n _ := by simp [configured, withReplicaId, recordKeyAt]
  records n q _ hq := by simp [configured, withReplicaId, recordKeyAt] at hq
  agree q := by simp [configured, withReplicaId, recordEntry]

end Agree

/-! ## Runs -/

section Run

variable {σ : Type} [Blake3]

/-- The commands of record batches, with operations that keep keys. -/
def Command.KeepsKey : Command → Prop
  | .apply action => action.field = "key" → DerivedKey action.node action.assignedKey
  | .load _ | .state _ | .overlay | .storedRecords _ => True
  | _ => False

/-- Record batches take these commands only. -/
theorem Command.allowsRecords_keepsKey : Command.AllowsRecords Command.KeepsKey where
  load _ := trivial
  state _ := trivial
  overlay := trivial
  storedRecords _ := trivial
  key key _ _ q hq := congrArg recordNodeId (Option.some.inj hq)
  value _ _ hfield := absurd hfield (by decide : "value" ≠ "key")
  delete _ hfield := absurd hfield (by decide : "value" ≠ "key")

/-- A transaction without a store whose state agrees and whose journal holds the overlay of the
start. -/
structure Session.RecordsAgree (old : Inner σ) (s : Session σ) : Prop where
  /-- There is no store. -/
  memory : s.inner.storageEngine = none
  /-- The state agrees. -/
  inner : s.inner.RecordsAgree
  /-- The overlay of the start is kept. -/
  overlay : s.journal.recordOverlay = old.recordOverlay
  /-- Its keys are kept. -/
  keys : s.journal.recordOverlayNodeKeys = old.recordOverlayNodeKeys

omit [Blake3] in
private theorem Session.applyLocal_journal (s : Session σ) (action : OperationAction) :
    (s.applyLocal action).journal.recordOverlay = s.journal.recordOverlay ∧
      (s.applyLocal action).journal.recordOverlayNodeKeys = s.journal.recordOverlayNodeKeys := by
  have hjournal : ∀ (t : Session σ) node, (t.journalNode node).journal.recordOverlay =
      t.journal.recordOverlay ∧
      (t.journalNode node).journal.recordOverlayNodeKeys = t.journal.recordOverlayNodeKeys := by
    intro t node
    rw [journalNode]
    split <;> exact ⟨rfl, rfl⟩
  rw [applyLocal, applyOperationInternal]
  split
  · dsimp only
    split
    · exact hjournal _ _
    · exact hjournal _ _
  · exact ⟨rfl, rfl⟩

variable [RecordStore σ]

private theorem Session.RecordsAgree.exec (hinjective : Function.Injective Blake3.hash)
    {old : Inner σ} {s : Session σ} (h : s.RecordsAgree old) {c : Command} (hc : c.KeepsKey) :
    (Session.exec c s).2.RecordsAgree old := by
  cases c with
  | apply action =>
    obtain ⟨index, heq⟩ := s.applyLocal_inner action
    obtain ⟨hoverlay, hkeys⟩ := s.applyLocal_journal action
    have hissued : (s.inner.issue action.nspace action).2.RecordsAgree :=
      h.inner.congr rfl rfl rfl
    have hkeeps : (s.inner.issue action.nspace action).1.KeepsKey := hc
    have happlied := hissued.applyOperationInternal hinjective hkeeps .local
    have hengine : (s.applyLocal action).inner.storageEngine = s.inner.storageEngine :=
      heq ▸ (Command.apply action).exec_storageEngine s.inner
    refine ⟨hengine.trans h.memory, ?_, hoverlay.trans h.overlay, hkeys.trans h.keys⟩
    change (s.applyLocal action).inner.RecordsAgree
    rw [heq]
    exact happlied.congr rfl rfl rfl
  | load node =>
    have hload : (Session.load node s).2 = s := by
      rw [Session.load, h.memory]
      split
      · rfl
      · split <;> rfl
    change (Session.load node s).2.RecordsAgree old
    rw [hload]
    exact h
  | state | overlay | storedRecords => exact h
  | _ => cases hc

/-- Saving without a store keeps the agreement. -/
theorem Inner.RecordsAgree.saved {before after : Inner σ} (h : before.RecordsAgree)
    (hmemory : before.storageEngine = none) (hsaved : Saved before after) :
    after.storageEngine = none ∧ after.RecordsAgree := by
  rcases hsaved with rfl | rfl
  · exact ⟨hmemory, h⟩
  · obtain ⟨queue, hqueue⟩ := before.markDurableOperationsFlushed_eq before.unflushedOps.operations
    rw [persistIfNeeded, hmemory]
    dsimp only
    rw [hqueue]
    exact ⟨hmemory, h.congr rfl rfl rfl⟩

/-- A database without a store whose point reads and overlay agree. -/
def Database.RecordsAgree (db : Database σ) : Prop :=
  db.inner.storageEngine = none ∧ db.inner.RecordsAgree

/-- A record batch, committed or taken back, keeps the agreement. -/
theorem Database.RecordsAgree.recordBatch (hinjective : Function.Injective Blake3.hash)
    {db : Database σ} (h : db.RecordsAgree) (fuel : ℕ) (batch : RecordBatch) :
    (inTransaction (Program.recordBatch fuel batch) db).2.RecordsAgree := by
  have hkeyed : db.inner.KeyedStore := fun engine _ _ hengine => by
    rw [h.1] at hengine
    cases hengine
  have hrun : Session.RecordsAgree db.inner ((Program.recordBatch fuel batch).run Session.exec
      (Session.start db.inner db.scheduledNodeFetches)).2 :=
    (Command.allowsRecords_keepsKey.recordBatch fuel batch).preserves
      (fun c s hc hs => hs.exec hinjective hc) ⟨h.1, h.2, rfl, rfl⟩
  have hrestore := Session.restore_run_nodes db.inner db.scheduledNodeFetches hkeyed
    (Program.recordBatch fuel batch)
  rcases inTransaction_inner (Program.recordBatch fuel batch) db with
    ⟨value, s, hbody, hsaved⟩ | ⟨e, s, hbody, heq⟩ <;> rw [hbody] at hrun hrestore
  · obtain ⟨index, hflushed⟩ := s.flushPendingRelationshipIndex_inner
    have hmemory : (db.committed s).inner.storageEngine = none := by
      rw [Database.committed, hflushed]
      exact hrun.memory
    have hagree : (db.committed s).inner.RecordsAgree := by
      rw [Database.committed, hflushed]
      exact hrun.inner.congr rfl rfl rfl
    exact hagree.saved hmemory hsaved
  · obtain ⟨index, hrestored⟩ := s.restore_eq
    rw [Database.RecordsAgree, heq]
    refine ⟨by rw [hrestored]; exact hrun.memory, h.2.congr hrestore ?_ ?_⟩
    · rw [hrestored]
      exact hrun.overlay
    · rw [hrestored]
      exact hrun.keys

private theorem Database.RecordsAgree.applyOperations (hinjective : Function.Injective Blake3.hash)
    {db : Database σ} (h : db.RecordsAgree) {ops : List Operation}
    (hops : ∀ op ∈ ops, op.KeepsKey) :
    ((Mutation.applyOperations ops).run db).2.RecordsAgree := by
  have hcounting : ∀ (ops : List Operation) (inner : Inner σ), (∀ op ∈ ops, op.KeepsKey) →
      inner.storageEngine = none → inner.RecordsAgree →
      (applyRemoteCounting ops inner).2.storageEngine = none ∧
        (applyRemoteCounting ops inner).2.RecordsAgree := by
    intro ops
    induction ops with
    | nil => exact fun inner _ hmemory hagree => ⟨hmemory, hagree⟩
    | cons op ops ih =>
      intro inner hops hmemory hagree
      refine ih _ (fun op hop => hops op (List.mem_cons_of_mem _ hop)) ?_
        (hagree.applyOperationInternal hinjective (hops op List.mem_cons_self) .remote)
      exact (inner.applyOperationInternal_frame op .remote).1.trans hmemory
  rw [Database.RecordsAgree, Mutation.run_applyOperations]
  obtain ⟨hmemory, hagree⟩ := hcounting ops db.inner hops h.1 h.2
  exact hagree.saved hmemory (applyOperations_saved ops db.inner)

/-- Record batches, and remote operations that keep keys. -/
def Mutation.KeepsKeys : Mutation → Prop
  | .write (.recordBatch _ _) => True
  | .applyOperations ops => ∀ op ∈ ops, op.KeepsKey
  | _ => False

private theorem Database.RecordsAgree.runMutations (hinjective : Function.Injective Blake3.hash)
    {db : Database σ} (h : db.RecordsAgree) {calls : List Mutation}
    (hcalls : ∀ call ∈ calls, call.KeepsKeys) : (db.runMutations calls).RecordsAgree := by
  induction calls generalizing db with
  | nil => exact h
  | cons call calls ih =>
    refine ih ?_ fun call hcall => hcalls call (List.mem_cons_of_mem _ hcall)
    have hcall := hcalls call List.mem_cons_self
    cases call with
    | write call =>
      cases call with
      | recordBatch fuel batch => exact h.recordBatch hinjective fuel batch
      | _ => cases hcall
    | applyOperations ops => exact h.applyOperations hinjective hcall
    | _ => cases hcall

end Run

/-! ## Reading -/

section Read

private theorem RecordScan.filter_matching {scan : RecordScan}
    {records : BTreeMap String RecordEntry}
    (h : RecordsKeyed records) {k : String} (hmatches : scan.matchesKey k = true) :
    ((scan.matching records).filter fun entry => decide (entry.key = k)) = records[k]?.toList := by
  have hkeys := scan.enumerates_matchingKeys records
  have hmap : ((scan.matching records).filter fun entry => decide (entry.key = k)).map
      RecordEntry.key = (scan.matchingKeys records).filter fun key => decide (key = k) := by
    rw [← scan.map_key_matching h, List.filter_map]
    rfl
  have hlength : ((scan.matching records).filter fun entry => decide (entry.key = k)).length =
      (scan.matchingKeys records).count k := by
    rw [← List.length_map RecordEntry.key, hmap, ← List.countP_eq_length_filter, List.count]
    rfl
  cases hread : records[k]? with
  | none =>
    refine List.eq_nil_of_length_eq_zero ?_
    rw [hlength, List.count_eq_zero, hkeys.mem_iff]
    intro hmem
    have hsome := Std.ExtTreeMap.mem_iff_isSome_getElem?.mp hmem.1
    rw [hread] at hsome
    cases hsome
  | some entry =>
    have hmem : k ∈ scan.matchingKeys records := (hkeys.mem_iff k).mpr
      ⟨Std.ExtTreeMap.mem_iff_isSome_getElem?.mpr (by rw [hread]; rfl), hmatches⟩
    have hlisted : entry ∈ (scan.matching records).filter fun entry => decide (entry.key = k) :=
      List.mem_filter.mpr ⟨List.mem_filterMap.mpr ⟨k, hmem, hread⟩,
        decide_eq_true (h k entry hread)⟩
    rw [List.count_eq_one_of_mem hkeys.sorted.nodup hmem] at hlength
    obtain ⟨only, honly⟩ := List.length_eq_one_iff.mp hlength
    rw [honly] at hlisted ⊢
    rw [List.mem_singleton.mp hlisted]
    rfl

variable {σ : Type} [RecordStore σ] [Blake3]

private theorem Inner.run_recordEntry {inner : Inner σ} (h : inner.storageEngine = none)
    (key : String) :
    (Program.recordEntry key).run Command.exec inner = (.ok (inner.recordEntry key), inner) := by
  have hload : (Program.load (recordNodeId key)).run Command.exec inner =
      (.ok (inner.view (recordNodeId key)).isSome, inner) :=
    (congrFun (Script.run_issue Command.exec (Command.load (recordNodeId key))) inner).trans
      (Inner.maybeLoadNode_of_none h (recordNodeId key))
  rw [Program.recordEntry, Script.run_bind, Effect.bind_ok hload, Script.run_bind]
  refine congrArg (·, inner) (congrArg Except.ok ?_)
  rw [recordEntry]
  congr 1

/-- In every database without a store that is reached by record batches and remote operations that
keep keys, a point read returns a value exactly when the scan of all records lists one entry under
the key, with that value. -/
theorem point_reads_agree (hinjective : Function.Injective Blake3.hash) (replicaId : String)
    (wall : WallClock) (policies : BTreeMap String ScopePolicy) (limits : PrimadbLimits)
    (calls : List Mutation) (hcalls : ∀ call ∈ calls, call.KeepsKeys) (reverse : Bool) (fuel : ℕ)
    (k : String) (v : RecordValue) :
    let start : Database σ := ⟨Inner.configured replicaId wall policies limits, ∅, 0, []⟩
    let inner := (start.runMutations calls).inner
    let scan : RecordScan := ⟨none, none, none, none, none, reverse, none, none⟩
    ∃ entry result, (Program.recordEntry k).run Command.exec inner = (.ok entry, inner) ∧
      (Program.scanRecords fuel scan).run Command.exec inner = (.ok result, inner) ∧
      (entry.map RecordEntry.value = some v ↔
        (result.entries.filter fun entry => decide (entry.key = k)).map RecordEntry.value =
          [v]) := by
  intro start inner scan
  obtain ⟨hmemory, hagree⟩ : (start.runMutations calls).RecordsAgree :=
    Database.RecordsAgree.runMutations hinjective
      ⟨rfl, Inner.recordsAgree_configured replicaId wall policies limits⟩ hcalls
  have hoverlay : OverlayKeyed inner.recordOverlay := by
    intro key entry hentry
    have hread := hagree.agree key
    rw [hentry, Option.join_some, eq_comm, Inner.recordEntry, Option.filter_eq_some_iff] at hread
    exact beq_iff_eq.mp hread.2
  refine ⟨_, _, Inner.run_recordEntry hmemory k,
    (Inner.holdsRecords_of_none hmemory).run_scanRecords fuel scan, ?_⟩
  have hempty : RecordsKeyed ∅ := fun key entry hentry => by simp at hentry
  have hresult : recordScanResult (collectEntries (fun _ => []) inner.recordOverlay fuel scan)
      scan = scanWindow none (scan.matching (combinedRecords inner.recordOverlay ∅)) :=
    RecordScan.recordScanResult_listing hempty hoverlay (Inner.holdsRecords_of_none hmemory).lists
      rfl
  have hread : (combinedRecords inner.recordOverlay ∅)[k]? = inner.recordEntry k := by
    rw [combinedRecords_get, overlaid, ← hagree.agree]
    cases inner.recordOverlay[k]? <;> simp
  rw [hresult, scanWindow, RecordScan.filter_matching
    (recordsKeyed_combinedRecords hoverlay hempty) (by rfl), hread]
  cases inner.recordEntry k <;> simp

end Read

/-- A record that is put and one that arrives. -/
def putAndReceived : List Mutation :=
  [.write (.recordBatch 1 ⟨[], [.put "k" (.json .null)]⟩),
    .applyOperations [
      ⟨"b/1", "b", ⟨1, 0, "b"⟩, .setField "__primadb_records/l" "key" (.scalar (.string "l"))⟩,
      ⟨"b/2", "b", ⟨1, 1, "b"⟩, .setField "__primadb_records/l" "value" (.scalar .null)⟩]]

/-- Both records are read by point reads as by scans. -/
theorem point_reads_agree_putAndReceived :
    let start : Database Empty := ⟨Inner.configured "a" ⟨fun _ => 0, 0⟩ ∅ .default, ∅, 0, []⟩
    let inner := (@Database.runMutations Empty _ plainHash start putAndReceived).inner
    let scan : RecordScan := ⟨none, none, none, none, none, false, none, none⟩
    inner.recordOverlay.keys = ["k", "l"] ∧
      ∃ entry result,
        (@Program.recordEntry plainHash "l").run Command.exec inner = (.ok entry, inner) ∧
        (Program.scanRecords 1 scan).run Command.exec inner = (.ok result, inner) ∧
        (entry.map RecordEntry.value = some (.json .null) ↔
          (result.entries.filter fun entry => decide (entry.key = "l")).map RecordEntry.value =
            [.json .null]) := by
  refine ⟨by decide +kernel, @point_reads_agree Empty _ plainHash (fun _ _ h => h) "a"
    ⟨fun _ => 0, 0⟩ ∅ .default putAndReceived ?_ false 1 "l" (.json .null)⟩
  intro call hcall
  rcases List.mem_pair.mp hcall with rfl | rfl
  · trivial
  · intro op hop
    rcases List.mem_pair.mp hop with rfl | rfl
    · intro _ _ q hq
      cases hq
      rfl
    · intro hfield
      exact absurd hfield (by decide : "value" ≠ "key")

/-- The operations of a record node that stores the key of another record. -/
def foreignKey : List Mutation :=
  [.applyOperations [
    ⟨"b/1", "b", ⟨1, 0, "b"⟩, .setField "__primadb_records/x" "key" (.scalar (.string "k"))⟩,
    ⟨"b/2", "b", ⟨1, 1, "b"⟩, .setField "__primadb_records/x" "value" (.scalar .null)⟩]]

/-- A remote node with a foreign key is listed by scans under a key no point read finds. -/
theorem foreign_key_listed_not_read :
    let start : Database Empty := ⟨Inner.configured "a" ⟨fun _ => 0, 0⟩ ∅ .default, ∅, 0, []⟩
    let inner := (@Database.runMutations Empty _ plainHash start foreignKey).inner
    ((@Program.recordEntry plainHash "k").run Command.exec inner).1.toOption = some none ∧
      ((Program.scanRecords 1 ⟨none, none, none, none, none, false, none, none⟩).run Command.exec
        inner).1.toOption.map RecordScanResult.entries = some [⟨"k", .json .null⟩] := by
  decide +kernel

end Primadb
