import Primadb.Core.Run
import Primadb.Db.PathWatch
import Primadb.Db.RecordWatch

/-!
# The snapshot-log adapter

The adapter keeps a snapshot in one file and appends the operations flushed after it to another.
When the log gets long, or there is no snapshot yet, it writes the current snapshot and empties
the log. Loading replays the log on the snapshot. So a change that is not made by the logged
operations is lost until the next snapshot is written, and what is written comes back only if its
text is read back as it was.

The part `ρ` of the state holds the provisional transactions, which are only copied; `τ` holds the
texts.
-/

namespace Primadb

open OperationCompactionKey

/-- How snapshots and operations are written as texts and read back; a text may not be read, or be
read as something else. -/
structure SnapshotLogCodec (ρ τ : Type) where
  /-- `to_string_pretty` on a snapshot. -/
  writeSnapshot : DatabaseSnapshot × ρ → τ
  /-- `from_str` on the text of a snapshot. -/
  readSnapshot : τ → Option (DatabaseSnapshot × ρ)
  /-- `to_string` on an operation. -/
  writeOperation : Operation → τ
  /-- `from_str` on the text of an operation. -/
  readOperation : τ → Option Operation

/-- `read_log` on the lines of the log. -/
def SnapshotLogCodec.readLog {ρ τ : Type} (codec : SnapshotLogCodec ρ τ) (log : List τ) :
    Option (List Operation) :=
  log.mapM codec.readOperation

/-- The two files: the snapshot and the operations appended since. -/
structure SnapshotLogFiles (τ : Type) where
  /-- `checkpoint.json`. -/
  checkpoint : Option τ
  /-- The lines of `ops.jsonl`. -/
  log : List τ

/-- `SnapshotLogFileAdapter`. -/
structure SnapshotLogFileAdapter where
  /-- The replica a database without snapshot is loaded as. -/
  replicaId : String
  /-- The length of the log at which a snapshot is written. -/
  compactionThreshold : ℕ
  /-- The constructor raises the threshold to one. -/
  positive : 1 ≤ compactionThreshold

namespace SnapshotLogFileAdapter

/-- The constructor. -/
def new (replicaId : String) (compactionThreshold : ℕ) : SnapshotLogFileAdapter :=
  ⟨replicaId, max compactionThreshold 1, le_max_right _ _⟩

variable {ρ τ : Type}

/-- `flush`, with whether it succeeds: it fails after appending when a line of the log is not
read. -/
def flush (adapter : SnapshotLogFileAdapter) (codec : SnapshotLogCodec ρ τ)
    (files : SnapshotLogFiles τ) (ops : List Operation) (snapshot : DatabaseSnapshot × ρ) :
    Bool × SnapshotLogFiles τ :=
  let log := files.log ++ ops.map codec.writeOperation
  match codec.readLog log with
  | none => (false, ⟨files.checkpoint, log⟩)
  | some entries =>
    if adapter.compactionThreshold ≤ entries.length ∨ files.checkpoint.isNone then
      (true, ⟨some (codec.writeSnapshot snapshot), []⟩)
    else (true, ⟨files.checkpoint, log⟩)

end SnapshotLogFileAdapter

/-- The snapshot `persist_if_needed` hands to an adapter. -/
def Inner.databaseSnapshot {σ : Type} (inner : Inner σ) : DatabaseSnapshot :=
  ⟨inner.clock, inner.nodes, inner.pendingOps.operations, inner.scopePolicies⟩

/-- The nodes, pending operations, policies and provisional transactions of a snapshot. -/
def snapshotParts {ρ : Type} (snapshot : DatabaseSnapshot × ρ) :
    BTreeMap NodeId NodeState × List Operation × BTreeMap String ScopePolicy × ρ :=
  (snapshot.1.nodes, snapshot.1.pendingOps, snapshot.1.scopePolicies, snapshot.2)

/-- A snapshot loaded into a new database, and the log replayed on it. -/
def replayed (σ : Type) (wall : WallClock) (snapshot : DatabaseSnapshot) (log : List Operation) :
    Inner σ :=
  (((Inner.withReplicaId snapshot.clock.actor wall : Inner σ).loadSnapshot snapshot).takeSteps
    .remote (log.map .apply)).2

/-- `load_snapshot` of the adapter, with no outcome when a text is not read; a new database has no
provisional transactions. -/
def SnapshotLogFileAdapter.loadSnapshot (σ : Type) {ρ τ : Type} [Inhabited ρ]
    (adapter : SnapshotLogFileAdapter) (codec : SnapshotLogCodec ρ τ) (wall : WallClock)
    (files : SnapshotLogFiles τ) : Option (Option (DatabaseSnapshot × ρ)) := do
  let checkpoint ← files.checkpoint.mapM codec.readSnapshot
  let log ← codec.readLog files.log
  match checkpoint with
  | none =>
    if log.isEmpty then some none
    else
      some (some (((Inner.withReplicaId adapter.replicaId wall : Inner σ).takeSteps .remote
        (log.map .apply)).2.databaseSnapshot, default))
  | some (snapshot, provisional) =>
    some (some ((replayed σ wall snapshot log).databaseSnapshot, provisional))

/-- A database with a snapshot-log adapter, and the snapshot flushed last. -/
structure LoggedDb (σ ρ τ : Type) where
  /-- The state in memory. -/
  inner : Inner σ
  /-- The provisional transactions. -/
  provisional : ρ
  files : SnapshotLogFiles τ
  lastFlushed : Option (DatabaseSnapshot × ρ)

/-- The calls that end in `persist_if_needed`. -/
inductive LogEvent (ρ : Type) where
  /-- A local write or transaction. -/
  | localWrite (steps : List GraphStep)
  | applyOperations (ops : List Operation)
  | drainPendingOperations
  | requeuePendingOperations (ops : List Operation)
  | configureScopePolicy (scope : String) (policy : ScopePolicy)
  /-- A provisional transaction is queued or settled. -/
  | changeProvisional (next : ρ)
  | mergeSnapshot (snapshot : DatabaseSnapshot)
  | loadSnapshot (snapshot : DatabaseSnapshot) (provisional : ρ)

namespace LoggedDb

variable {σ ρ τ : Type}

/-- The snapshot of the state in memory. -/
def snapshot (db : LoggedDb σ ρ τ) : DatabaseSnapshot × ρ :=
  (db.inner.databaseSnapshot, db.provisional)

/-- `persist_if_needed` with the adapter as only backend. -/
def persist (adapter : SnapshotLogFileAdapter) (codec : SnapshotLogCodec ρ τ)
    (db : LoggedDb σ ρ τ) : LoggedDb σ ρ τ :=
  let ops := db.inner.unflushedOps.operations
  let flushed := adapter.flush codec db.files ops db.snapshot
  if flushed.1 then
    { db with
      inner := db.inner.markDurableOperationsFlushed ops
      files := flushed.2
      lastFlushed := some db.snapshot }
  else { db with files := flushed.2 }

/-- What a call changes before it persists. -/
def change (db : LoggedDb σ ρ τ) : LogEvent ρ → LoggedDb σ ρ τ
  | .localWrite steps => { db with inner := (db.inner.takeSteps .local steps).2 }
  | .applyOperations ops => { db with inner := (db.inner.takeSteps .remote (ops.map .apply)).2 }
  | .drainPendingOperations => { db with inner.pendingOps := .empty }
  | .requeuePendingOperations ops =>
    { db with inner.pendingOps := ops.foldl CompactedOperations.push db.inner.pendingOps }
  | .configureScopePolicy scope policy =>
    { db with inner.scopePolicies := db.inner.scopePolicies.insert scope policy }
  | .changeProvisional next => { db with provisional := next }
  | .mergeSnapshot snapshot => { db with inner := db.inner.mergeSnapshotIntoInner snapshot }
  | .loadSnapshot snapshot provisional =>
    { db with inner := db.inner.loadSnapshot snapshot, provisional := provisional }

/-- Whether a call persists. -/
def persists (db : LoggedDb σ ρ τ) : LogEvent ρ → Bool
  | .applyOperations ops => !(db.inner.takeSteps .remote (ops.map .apply)).1.isEmpty
  | .drainPendingOperations => !db.inner.pendingOps.operations.isEmpty
  | .requeuePendingOperations ops => !ops.isEmpty
  | _ => true

/-- One call. -/
def step (adapter : SnapshotLogFileAdapter) (codec : SnapshotLogCodec ρ τ) (db : LoggedDb σ ρ τ)
    (event : LogEvent ρ) : LoggedDb σ ρ τ :=
  if db.persists event then (db.change event).persist adapter codec else db.change event

/-- A database is attached to an adapter on an empty directory. -/
def attach (adapter : SnapshotLogFileAdapter) (codec : SnapshotLogCodec ρ τ) (inner : Inner σ)
    (provisional : ρ) : LoggedDb σ ρ τ :=
  persist adapter codec ⟨inner, provisional, ⟨none, []⟩, none⟩

/-- Loading gives the parts of the snapshot flushed last. -/
def RoundTrip [Inhabited ρ] (adapter : SnapshotLogFileAdapter) (codec : SnapshotLogCodec ρ τ)
    (wall : WallClock) (db : LoggedDb σ ρ τ) : Prop :=
  (adapter.loadSnapshot σ codec wall db.files).map (·.map snapshotParts) =
    some (db.lastFlushed.map snapshotParts)

/-- The parts of the state in memory. -/
def parts (db : LoggedDb σ ρ τ) :
    BTreeMap NodeId NodeState × List Operation × BTreeMap String ScopePolicy × ρ :=
  snapshotParts db.snapshot

/-- The texts of a flush that writes a snapshot are read: the lines as some operations, and the
snapshot as it is. -/
def Readable (codec : SnapshotLogCodec ρ τ) (db : LoggedDb σ ρ τ) : Prop :=
  (∀ op ∈ db.inner.unflushedOps.operations,
      (codec.readOperation (codec.writeOperation op)).isSome = true) ∧
    codec.readSnapshot (codec.writeSnapshot db.snapshot) = some db.snapshot

/-- A call whose change is not lost: its flush writes a snapshot that is read back, or it applies
operations of pairwise different compaction keys from another replica that are read back, or it
changes nothing and has nothing to flush. -/
def Kept (adapter : SnapshotLogFileAdapter) (codec : SnapshotLogCodec ρ τ) (db : LoggedDb σ ρ τ)
    (event : LogEvent ρ) : Prop :=
  let after := db.change event
  if adapter.compactionThreshold ≤
      db.files.log.length + after.inner.unflushedOps.operations.length then after.Readable codec
  else
    (∃ ops, event = .applyOperations ops ∧
      ((db.inner.takeSteps .remote (ops.map .apply)).1.map fromOperation).Nodup ∧
      ∀ op ∈ (db.inner.takeSteps .remote (ops.map .apply)).1,
        codec.readOperation (codec.writeOperation op) = some op) ∨
    (after.parts = db.parts ∧ after.inner.unflushedOps.operations = [])

end LoggedDb

/-- Pushing operations with new and pairwise different keys appends them. -/
theorem CompactedOperations.Wf.foldl_push_append {queue : CompactedOperations} (h : queue.Wf)
    {ops : List Operation} (hnodup : (ops.map fromOperation).Nodup)
    (hnew : ∀ op ∈ ops, ∀ o ∈ queue.operations, fromOperation o ≠ fromOperation op) :
    (ops.foldl CompactedOperations.push queue).operations = queue.operations ++ ops := by
  induction ops generalizing queue with
  | nil => exact (List.append_nil _).symm
  | cons op ops ih =>
    obtain ⟨hfirst, hrest⟩ := List.nodup_cons.mp hnodup
    have hpush : (queue.push op).operations = queue.operations ++ [op] := by
      rw [h.push_operations, if_neg]
      rw [List.any_eq_true]
      rintro ⟨o, ho, hkey⟩
      exact hnew op List.mem_cons_self o ho (beq_iff_eq.mp hkey)
    rw [List.foldl_cons, ih (h.push op) hrest fun later hlater o ho => ?_, hpush,
      List.append_assoc]
    · rfl
    · rw [hpush] at ho
      rcases List.mem_append.mp ho with ho | ho
      · exact hnew later (List.mem_cons_of_mem _ hlater) o ho
      · rw [List.mem_singleton.mp ho]
        exact fun heq => hfirst (heq ▸ List.mem_map_of_mem hlater)

/-- Queueing what a queue holds gives its operations again. -/
theorem CompactedOperations.Wf.fromOperations_operations {queue : CompactedOperations}
    (h : queue.Wf) :
    (CompactedOperations.fromOperations queue.operations).operations = queue.operations :=
  Wf.empty.foldl_push_append h.nodup fun _ _ _ ho => absurd ho List.not_mem_nil

namespace Inner

variable {σ : Type} {inner other : Inner σ}

/-- The parts of a database that loaded a snapshot. -/
theorem loadSnapshot_parts (inner : Inner σ) (snapshot : DatabaseSnapshot) :
    (inner.loadSnapshot snapshot).nodes = snapshot.nodes ∧
      (inner.loadSnapshot snapshot).pendingOps =
        CompactedOperations.fromOperations snapshot.pendingOps ∧
      (inner.loadSnapshot snapshot).scopePolicies = snapshot.scopePolicies ∧
      (inner.loadSnapshot snapshot).unflushedOps = .empty ∧
      (inner.loadSnapshot snapshot).clock = snapshot.clock := by
  obtain ⟨overlay, keys, hoverlay⟩ := rebuildRecordOverlay_eq
    { inner with clock := snapshot.clock, nodes := snapshot.nodes }
  rw [loadSnapshot, hoverlay]
  obtain ⟨index, hindex⟩ := rebuildRelationshipIndex_eq
    { inner with
      clock := snapshot.clock
      nodes := snapshot.nodes
      recordOverlay := overlay
      recordOverlayNodeKeys := keys
      pendingOps := .fromOperations snapshot.pendingOps
      scopePolicies := snapshot.scopePolicies
      unflushedOps := .empty
      missingNodes := ∅ }
  rw [hindex]
  exact ⟨rfl, rfl, rfl, rfl, rfl⟩

private theorem takeSteps_scopePolicies (origin : OperationOrigin) (steps : List GraphStep) :
    (inner.takeSteps origin steps).2.scopePolicies = inner.scopePolicies := by
  induction steps generalizing inner with
  | nil => rfl
  | cons step steps ih =>
    cases step with
    | ensure node => exact ih
    | apply op => exact ih.trans (inner.applyOperationInternal_frame op origin).2.1

private theorem applyOperationInternal_queues (inner : Inner σ) (op : Operation)
    (origin : OperationOrigin) :
    (inner.applyOperationInternal op origin).2.unflushedOps =
        (if (inner.applyOperationInternal op origin).1 then inner.unflushedOps.push op
        else inner.unflushedOps) ∧
      (inner.applyOperationInternal op origin).2.pendingOps =
        if (inner.applyOperationInternal op origin).1 = true ∧ origin = .local then
          inner.pendingOps.push op
        else inner.pendingOps := by
  rw [applyOperationInternal]
  split
  · obtain ⟨haccepted, overlay, keys, index, heq⟩ := inner.applyAdmitted_eq op origin
    rw [haccepted, heq]
    exact ⟨rfl, rfl⟩
  · exact ⟨rfl, rfl⟩

private theorem takeSteps_queues (inner : Inner σ) (origin : OperationOrigin)
    (steps : List GraphStep) :
    (inner.takeSteps origin steps).2.unflushedOps =
        (inner.takeSteps origin steps).1.foldl CompactedOperations.push inner.unflushedOps ∧
      (inner.takeSteps origin steps).2.pendingOps =
        if origin = .local then
          (inner.takeSteps origin steps).1.foldl CompactedOperations.push inner.pendingOps
        else inner.pendingOps := by
  induction steps generalizing inner with
  | nil => exact ⟨rfl, by split <;> rfl⟩
  | cons step steps ih =>
    cases step with
    | ensure node => exact ih (inner.ensureNode node)
    | apply op =>
      obtain ⟨hunflushed, hpending⟩ := ih (inner.applyOperationInternal op origin).2
      obtain ⟨hunflushed', hpending'⟩ := inner.applyOperationInternal_queues op origin
      simp only [takeSteps]
      rw [hunflushed, hpending, hunflushed', hpending']
      cases (inner.applyOperationInternal op origin).1 with
      | false => simp
      | true => cases origin <;> simp

/-- Replaying the accepted operations of a batch makes the changes of the batch. -/
theorem takeSteps_accepted (hnodes : other.nodes = inner.nodes)
    (hpolicies : other.scopePolicies = inner.scopePolicies) (ops : List Operation) :
    (other.takeSteps .remote
      ((inner.takeSteps .remote (ops.map .apply)).1.map .apply)).2.nodes =
        (inner.takeSteps .remote (ops.map .apply)).2.nodes := by
  induction ops generalizing inner other with
  | nil => exact hnodes
  | cons op ops ih =>
    have hadmits : other.admits op .remote = inner.admits op .remote := by
      rw [admits, admits, remoteOperationAllowed, remoteOperationAllowed, hpolicies]
    have hkept := (inner.applyOperationInternal_frame op .remote).2.1
    simp only [List.map_cons, takeSteps]
    cases haccepted : (inner.applyOperationInternal op .remote).1 with
    | true =>
      -- an accepted operation was admitted, and finds the same nodes again
      simp only [if_true, List.map_cons, takeSteps]
      refine ih ?_ ?_
      · rw [applyOperationInternal] at haccepted ⊢
        rw [applyOperationInternal]
        split at haccepted
        · rename_i hadmitted
          rw [hadmits, if_pos hadmitted, if_pos hadmitted, applyAdmitted_nodes,
            applyAdmitted_nodes, hnodes]
        · cases haccepted
      · rw [(other.applyOperationInternal_frame op .remote).2.1, hkept, hpolicies]
    | false =>
      -- a refused one leaves the nodes
      simp only [Bool.false_eq_true, if_false]
      refine ih (hnodes.trans ?_) (hpolicies.trans hkept.symm)
      rcases inner.applyOperationInternal_cases op .remote with hcase | ⟨hacc, happlied, -⟩
      · rw [hcase]
      · rw [haccepted] at hacc
        have hmem : op.action.node ∈ inner.nodes := by
          by_contra habsent
          rw [applyToNodes_accepts_of_absent habsent] at hacc
          cases hacc
        rw [happlied, applyToNodes_refused hmem hacc.symm]

end Inner

private theorem replayed_append (σ : Type) (wall : WallClock) (snapshot : DatabaseSnapshot)
    (log ops : List Operation) :
    replayed σ wall snapshot (log ++ ops) =
      ((replayed σ wall snapshot log).takeSteps .remote (ops.map .apply)).2 := by
  rw [replayed, List.map_append, Inner.takeSteps_append]
  rfl

namespace SnapshotLogCodec

variable {ρ τ : Type} {codec : SnapshotLogCodec ρ τ}

/-- A log is read line by line. -/
theorem readLog_append {log lines : List τ} {entries ops : List Operation}
    (hlog : codec.readLog log = some entries) (hlines : codec.readLog lines = some ops) :
    codec.readLog (log ++ lines) = some (entries ++ ops) := by
  rw [readLog] at hlog hlines ⊢
  rw [List.mapM_append, hlog, hlines]
  rfl

private theorem length_readLog {log : List τ} {entries : List Operation}
    (h : codec.readLog log = some entries) : entries.length = log.length := by
  induction log generalizing entries with
  | nil =>
    cases h
    rfl
  | cons line log ih =>
    rw [readLog, List.mapM_cons] at h
    obtain ⟨op, -, hrest⟩ := Option.bind_eq_some_iff.mp h
    obtain ⟨rest, hlog, heq⟩ := Option.bind_eq_some_iff.mp hrest
    cases heq
    rw [List.length_cons, List.length_cons, ih hlog]

/-- Lines that are read one by one are read. -/
theorem exists_readLog {ops : List Operation}
    (h : ∀ op ∈ ops, (codec.readOperation (codec.writeOperation op)).isSome = true) :
    ∃ entries, codec.readLog (ops.map codec.writeOperation) = some entries := by
  induction ops with
  | nil => exact ⟨[], rfl⟩
  | cons op ops ih =>
    obtain ⟨entry, hentry⟩ := Option.isSome_iff_exists.mp (h op List.mem_cons_self)
    obtain ⟨entries, hentries⟩ := ih fun other hother => h other (List.mem_cons_of_mem _ hother)
    refine ⟨entry :: entries, ?_⟩
    rw [readLog] at hentries ⊢
    rw [List.map_cons, List.mapM_cons, hentry, hentries]
    rfl

/-- Lines that are read back as they were. -/
theorem readLog_map {ops : List Operation}
    (h : ∀ op ∈ ops, codec.readOperation (codec.writeOperation op) = some op) :
    codec.readLog (ops.map codec.writeOperation) = some ops := by
  induction ops with
  | nil => rfl
  | cons op ops ih =>
    have hrest := ih fun other hother => h other (List.mem_cons_of_mem _ hother)
    rw [readLog] at hrest ⊢
    rw [List.map_cons, List.mapM_cons, h op List.mem_cons_self, hrest]
    rfl

end SnapshotLogCodec

namespace LoggedDb

variable {σ ρ τ : Type} {adapter : SnapshotLogFileAdapter} {codec : SnapshotLogCodec ρ τ}
  {wall : WallClock} {db : LoggedDb σ ρ τ}

/-- The files hold texts that are read as a snapshot and operations that replay to the parts. -/
def Stores (codec : SnapshotLogCodec ρ τ) (wall : WallClock) (db : LoggedDb σ ρ τ)
    (log : List τ) : Prop :=
  ∃ text snapshot provisional entries, db.files.checkpoint = some text ∧
    codec.readSnapshot text = some (snapshot, provisional) ∧ codec.readLog log = some entries ∧
    snapshotParts ((replayed σ wall snapshot entries).databaseSnapshot, provisional) = db.parts

/-- What the files hold is the state in memory, and so is the snapshot flushed last. -/
structure Faithful (codec : SnapshotLogCodec ρ τ) (wall : WallClock) (db : LoggedDb σ ρ τ) :
    Prop where
  /-- The pending queue is well formed. -/
  pending : db.inner.pendingOps.Wf
  /-- The unflushed queue is well formed. -/
  unflushed : db.inner.unflushedOps.Wf
  /-- Everything is flushed. -/
  drained : db.inner.unflushedOps.operations = []
  /-- The snapshot flushed last. -/
  flushed : db.lastFlushed.map snapshotParts = some db.parts
  /-- The files. -/
  stored : db.Stores codec wall db.files.log

/-- Loading from faithful files gives the snapshot flushed last. -/
theorem Faithful.roundTrip [Inhabited ρ] (h : Faithful codec wall db) :
    RoundTrip adapter codec wall db := by
  obtain ⟨text, snapshot, provisional, entries, hcheckpoint, hread, hlog, hparts⟩ := h.stored
  have hload : adapter.loadSnapshot σ codec wall db.files =
      some (some ((replayed σ wall snapshot entries).databaseSnapshot, provisional)) := by
    have hfirst : db.files.checkpoint.mapM codec.readSnapshot =
        some (some (snapshot, provisional)) := by
      rw [hcheckpoint, Option.mapM_some, hread]
      rfl
    rw [SnapshotLogFileAdapter.loadSnapshot, hfirst, hlog]
    rfl
  rw [RoundTrip, hload, h.flushed, Option.map_some, Option.map_some, hparts]

/-- A snapshot of well-formed queues is loaded as it is. -/
theorem snapshotParts_replayed_nil (h : db.inner.pendingOps.Wf) :
    snapshotParts ((replayed σ wall db.inner.databaseSnapshot []).databaseSnapshot,
      db.provisional) = db.parts := by
  obtain ⟨hnodes, hpending, hpolicies, -⟩ := Inner.loadSnapshot_parts
    (Inner.withReplicaId db.inner.databaseSnapshot.clock.actor wall : Inner σ)
    db.inner.databaseSnapshot
  refine Prod.ext hnodes (Prod.ext ?_ (Prod.ext hpolicies rfl))
  exact (congrArg CompactedOperations.operations hpending).trans h.fromOperations_operations

/-- Persisting with a successful flush marks the operations as flushed and leaves the parts. -/
theorem persist_flushed (hunflushed : db.inner.unflushedOps.Wf) {files : SnapshotLogFiles τ}
    (hflush : adapter.flush codec db.files db.inner.unflushedOps.operations db.snapshot =
      (true, files)) :
    let after := db.persist adapter codec
    after.files = files ∧ after.lastFlushed = some db.snapshot ∧ after.parts = db.parts ∧
      after.inner.pendingOps = db.inner.pendingOps ∧ after.inner.unflushedOps.Wf ∧
      after.inner.unflushedOps.operations = [] := by
  intro after
  have hafter : after = { db with
      inner := db.inner.markDurableOperationsFlushed db.inner.unflushedOps.operations
      files := files
      lastFlushed := some db.snapshot } := by
    simp only [after, LoggedDb.persist, hflush, if_true]
  obtain ⟨queue, hqueue⟩ :=
    db.inner.markDurableOperationsFlushed_eq db.inner.unflushedOps.operations
  have hdrained : (db.inner.markDurableOperationsFlushed
      db.inner.unflushedOps.operations).unflushedOps.Wf ∧ (db.inner.markDurableOperationsFlushed
        db.inner.unflushedOps.operations).unflushedOps.operations = [] := by
    rw [Inner.markDurableOperationsFlushed]
    split
    · rename_i hempty
      exact ⟨hunflushed, List.isEmpty_iff.mp hempty⟩
    · rw [if_pos (List.take_length)]
      exact ⟨hunflushed.drainPrefix _, by simp [CompactedOperations.drainPrefix]⟩
  rw [hafter]
  refine ⟨rfl, rfl, ?_, ?_, hdrained⟩
  · simp only [parts, snapshot, hqueue]
    rfl
  · rw [hqueue]

/-- Persisting gives faithful files when it writes a snapshot that is read back or the longer log
replays to the state. -/
theorem Faithful.persist (hpending : db.inner.pendingOps.Wf)
    (hunflushed : db.inner.unflushedOps.Wf) {entries : List Operation}
    (hlog : codec.readLog (db.files.log ++
      db.inner.unflushedOps.operations.map codec.writeOperation) = some entries)
    (hkept : if adapter.compactionThreshold ≤ entries.length ∨ db.files.checkpoint.isNone = true
      then codec.readSnapshot (codec.writeSnapshot db.snapshot) = some db.snapshot
      else db.Stores codec wall
        (db.files.log ++ db.inner.unflushedOps.operations.map codec.writeOperation)) :
    Faithful codec wall (db.persist adapter codec) := by
  have hflush : adapter.flush codec db.files db.inner.unflushedOps.operations db.snapshot =
      if adapter.compactionThreshold ≤ entries.length ∨ db.files.checkpoint.isNone then
        (true, ⟨some (codec.writeSnapshot db.snapshot), []⟩)
      else (true, ⟨db.files.checkpoint,
        db.files.log ++ db.inner.unflushedOps.operations.map codec.writeOperation⟩) := by
    rw [SnapshotLogFileAdapter.flush, hlog]
  split at hkept
  · rename_i hwrite
    rw [if_pos hwrite] at hflush
    obtain ⟨hfiles, hlast, hparts, hqueue, hwf, hdrained⟩ := persist_flushed hunflushed hflush
    refine ⟨hqueue ▸ hpending, hwf, hdrained, ?_, ?_⟩
    · rw [hlast, hparts]
      rfl
    · refine ⟨_, _, _, [], by rw [hfiles], hkept, by rw [hfiles]; rfl, ?_⟩
      rw [hparts]
      exact snapshotParts_replayed_nil hpending
  · rename_i happend
    rw [if_neg happend] at hflush
    obtain ⟨hfiles, hlast, hparts, hqueue, hwf, hdrained⟩ := persist_flushed hunflushed hflush
    refine ⟨hqueue ▸ hpending, hwf, hdrained, ?_, ?_⟩
    · rw [hlast, hparts]
      rfl
    · obtain ⟨text, snapshot, provisional, entries, hcheckpoint, hread, hreadLog, hstored⟩ := hkept
      rw [Stores, hfiles, hparts]
      exact ⟨text, snapshot, provisional, entries, hcheckpoint, hread, hreadLog, hstored⟩

private theorem change_wf (hpending : db.inner.pendingOps.Wf)
    (hunflushed : db.inner.unflushedOps.Wf) (event : LogEvent ρ) :
    (db.change event).inner.pendingOps.Wf ∧ (db.change event).inner.unflushedOps.Wf := by
  have hsteps : ∀ origin steps, (db.inner.takeSteps origin steps).2.pendingOps.Wf ∧
      (db.inner.takeSteps origin steps).2.unflushedOps.Wf := by
    intro origin steps
    obtain ⟨hqueue, hqueue'⟩ := db.inner.takeSteps_queues origin steps
    rw [hqueue, hqueue']
    refine ⟨?_, hunflushed.foldl_push _⟩
    split
    · exact hpending.foldl_push _
    · exact hpending
  cases event with
  | localWrite steps => exact hsteps .local steps
  | applyOperations ops => exact hsteps .remote _
  | drainPendingOperations => exact ⟨.empty, hunflushed⟩
  | requeuePendingOperations ops => exact ⟨hpending.foldl_push ops, hunflushed⟩
  | configureScopePolicy scope policy => exact ⟨hpending, hunflushed⟩
  | changeProvisional next => exact ⟨hpending, hunflushed⟩
  | mergeSnapshot snapshot =>
    obtain ⟨overlay, keys, index, heq⟩ := db.inner.mergeSnapshotIntoInner_eq snapshot
    simp only [change, heq]
    exact ⟨hpending, hunflushed⟩
  | loadSnapshot snapshot provisional =>
    obtain ⟨-, hqueue, -, hqueue', -⟩ := db.inner.loadSnapshot_parts snapshot
    simp only [change, hqueue, hqueue']
    exact ⟨.fromOperations _, .empty⟩

/-- Before it persists a call leaves the files and what was flushed last. -/
theorem change_files (db : LoggedDb σ ρ τ) (event : LogEvent ρ) :
    (db.change event).files = db.files ∧ (db.change event).lastFlushed = db.lastFlushed := by
  cases event <;> exact ⟨rfl, rfl⟩

/-- A call that does not persist changes nothing that is stored. -/
theorem change_of_not_persists {event : LogEvent ρ} (h : db.persists event = false) :
    (db.change event).parts = db.parts ∧
      (db.change event).inner.unflushedOps.operations = db.inner.unflushedOps.operations := by
  cases event with
  | applyOperations ops =>
    have haccepted : (db.inner.takeSteps .remote (ops.map .apply)).1 = [] := by
      simpa [persists] using h
    have hnodes := @Inner.takeSteps_accepted σ db.inner db.inner rfl rfl ops
    obtain ⟨hunflushed, hpending⟩ := db.inner.takeSteps_queues .remote (ops.map .apply)
    rw [haccepted] at hnodes hunflushed
    refine ⟨Prod.ext hnodes.symm (Prod.ext ?_ (Prod.ext ?_ rfl)), ?_⟩
    · exact congrArg CompactedOperations.operations hpending
    · exact Inner.takeSteps_scopePolicies _ _
    · exact congrArg CompactedOperations.operations hunflushed
  | drainPendingOperations =>
    have hempty : db.inner.pendingOps.operations = [] := by simpa [persists] using h
    exact ⟨Prod.ext rfl (Prod.ext hempty.symm rfl), rfl⟩
  | requeuePendingOperations ops =>
    have hempty : ops = [] := by simpa [persists] using h
    subst hempty
    exact ⟨rfl, rfl⟩
  | localWrite _ => cases h
  | configureScopePolicy _ _ => cases h
  | changeProvisional _ => cases h
  | mergeSnapshot _ => cases h
  | loadSnapshot _ _ => cases h

/-- A call whose change is kept leaves faithful files. -/
theorem Faithful.step (h : Faithful codec wall db) {event : LogEvent ρ}
    (hkept : db.Kept adapter codec event) : Faithful codec wall (db.step adapter codec event) := by
  obtain ⟨hpending, hunflushed⟩ := change_wf h.pending h.unflushed event
  obtain ⟨hfiles, hlast⟩ := db.change_files event
  obtain ⟨text, snapshot, provisional, entries, hcheckpoint, hread, hlog, hstored⟩ := h.stored
  have hpresent : ¬ db.files.checkpoint.isNone = true := by simp [hcheckpoint]
  have hlength := SnapshotLogCodec.length_readLog hlog
  rw [LoggedDb.step]
  split
  · rw [Kept] at hkept
    split at hkept
    · -- the log gets long, and a snapshot is written
      rename_i hlong
      obtain ⟨added, hadded⟩ := SnapshotLogCodec.exists_readLog hkept.1
      have hboth := SnapshotLogCodec.readLog_append hlog hadded
      have hcount := SnapshotLogCodec.length_readLog hadded
      rw [List.length_map] at hcount
      refine Faithful.persist hpending hunflushed (by rw [hfiles]; exact hboth) ?_
      rw [if_pos (Or.inl (by rw [List.length_append]; omega))]
      exact hkept.2
    · rename_i hshort
      rcases hkept with ⟨ops, rfl, hnodup, hback⟩ | ⟨hparts, hempty⟩
      · -- the log grows by the accepted operations, and they make the same changes again
        obtain ⟨hqueue, hqueue'⟩ := db.inner.takeSteps_queues .remote (ops.map .apply)
        have hops : (db.change (.applyOperations ops)).inner.unflushedOps.operations =
            (db.inner.takeSteps .remote (ops.map .apply)).1 := by
          simp only [change]
          rw [hqueue, h.unflushed.foldl_push_append hnodup
            (fun _ _ o ho => absurd (h.drained ▸ ho) List.not_mem_nil), h.drained, List.nil_append]
        have hboth := SnapshotLogCodec.readLog_append hlog (SnapshotLogCodec.readLog_map hback)
        rw [hops] at hshort
        refine Faithful.persist hpending hunflushed (by rw [hfiles, hops]; exact hboth) ?_
        rw [if_neg (not_or.mpr ⟨by rw [List.length_append]; omega, hfiles ▸ hpresent⟩), hfiles,
          hops]
        refine ⟨text, snapshot, provisional, _, hfiles ▸ hcheckpoint, hread, hboth, ?_⟩
        obtain ⟨hnodes, hrest⟩ := Prod.mk.inj hstored
        obtain ⟨hpend, hrest⟩ := Prod.mk.inj hrest
        obtain ⟨hpolicies, hprovisional⟩ := Prod.mk.inj hrest
        rw [replayed_append]
        refine Prod.ext (Inner.takeSteps_accepted hnodes hpolicies ops)
          (Prod.ext ?_ (Prod.ext ?_ hprovisional))
        · refine (congrArg CompactedOperations.operations (Inner.takeSteps_queues _ _ _).2).trans ?_
          exact hpend.trans (congrArg CompactedOperations.operations hqueue').symm
        · exact (Inner.takeSteps_scopePolicies _ _).trans
            (hpolicies.trans (Inner.takeSteps_scopePolicies _ _).symm)
      · rw [hempty] at hshort
        have hsame : codec.readLog ((db.change event).files.log ++
            (db.change event).inner.unflushedOps.operations.map codec.writeOperation) =
              some entries := by
          rw [hempty, hfiles, List.map_nil, List.append_nil]
          exact hlog
        refine Faithful.persist hpending hunflushed hsame ?_
        rw [if_neg (not_or.mpr ⟨by simp at hshort; omega, hfiles ▸ hpresent⟩)]
        exact ⟨text, snapshot, provisional, entries, hfiles ▸ hcheckpoint, hread, hsame,
          hstored.trans hparts.symm⟩
  · rename_i hpersists
    obtain ⟨hparts, hqueue⟩ := change_of_not_persists (Bool.eq_false_iff.mpr hpersists)
    refine ⟨hpending, hunflushed, hqueue.trans h.drained, ?_, ?_⟩
    · rw [hlast, hparts]
      exact h.flushed
    · refine ⟨text, snapshot, provisional, entries, hfiles ▸ hcheckpoint, hread, hfiles ▸ hlog, ?_⟩
      exact hstored.trans hparts.symm

/-- Attaching to an empty directory writes a snapshot. -/
theorem faithful_attach {inner : Inner σ} (hpending : inner.pendingOps.Wf)
    (hunflushed : inner.unflushedOps.Wf) {provisional : ρ}
    (hreadable : Readable codec ⟨inner, provisional, ⟨none, []⟩, none⟩) :
    Faithful codec wall (attach adapter codec inner provisional) := by
  obtain ⟨entries, hlog⟩ := SnapshotLogCodec.exists_readLog hreadable.1
  refine Faithful.persist hpending hunflushed hlog ?_
  rw [if_pos]
  · exact hreadable.2
  · exact Or.inr rfl

/-- Texts that are the values written. -/
def plainTexts : SnapshotLogCodec Unit (DatabaseSnapshot ⊕ Operation) where
  writeSnapshot snapshot := .inl snapshot.1
  readSnapshot text := text.getLeft?.map fun snapshot => (snapshot, ())
  writeOperation := .inr
  readOperation := Sum.getRight?

end LoggedDb

end Primadb
