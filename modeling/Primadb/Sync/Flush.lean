import Primadb.Db.Ledger
import Primadb.Net.RelayClient

/-!
# Sending local operations

The native sync client drains the pending queue into messages, keeps a sent message
in the inflight table until it is acknowledged, and puts unacknowledged messages back
on a disconnect. Queue and table are behind their own locks and storage runs between
them, so a flush attempt is a task that takes several steps, with its operations held
by nothing but the task in between.
-/

namespace Primadb

/-- A flush attempt or a requeue between two of its steps. -/
inductive SyncTask where
  /-- The pending queue was taken; the change is to be finalized. -/
  | drained (ops : List Operation)
  /-- The drain is finalized; the message is to be cut to its greatest length. -/
  | draining (ops : List Operation)
  /-- What is too much was put back; that change is to be finalized. -/
  | cut (ops : List Operation)
  /-- The message is to be numbered and encoded. -/
  | ready (ops : List Operation)
  /-- The message is to be sent. -/
  | encoded (id : ℕ) (ops : List Operation)
  /-- The message was not sent; its operations are to be put back. -/
  | unsent (ops : List Operation)
  /-- The message was sent and is to be entered into the inflight table. -/
  | sent (id : ℕ) (ops : List Operation)
  /-- The inflight table was taken; its messages are to be put back. -/
  | requeueing (messages : List (List Operation))

/-- The operations only the task holds. -/
def SyncTask.ops : SyncTask → List Operation
  | drained ops | draining ops | cut ops | ready ops | encoded _ ops | unsent ops
  | sent _ ops => ops
  | requeueing messages => messages.flatten

/-- A database with its sync client. The last three fields are history: the newest local operation
of each slot, the messages handed to the transport, and the operations acknowledged by the peer. -/
structure SyncState where
  /-- Nodes, clock and queues of the database. -/
  ledger : Ledger
  maxOpsPerMessage : ℕ
  /-- Whether the socket is connected. -/
  connected : Bool
  /-- Number of the last message. -/
  nextMessageSeq : ℕ
  /-- Sent messages without an acknowledgement. -/
  inflight : BTreeMap ℕ (List Operation)
  /-- Running flush attempts and requeues. -/
  tasks : List SyncTask
  /-- The newest local operation of each slot. -/
  latest : BTreeMap OperationCompactionKey Operation
  /-- The operations of each message sent. -/
  messages : BTreeMap ℕ (List Operation)
  /-- The operations of acknowledged messages. -/
  acknowledged : List Operation

/-- `fetch_add(1) + 1` on a 64-bit counter. -/
def nextSeq (seq : ℕ) : ℕ := (seq + 1) % 2 ^ 64

/-- Record accepted local operations as the newest of their slots. -/
def recordLatest (latest : BTreeMap OperationCompactionKey Operation) (ops : List Operation) :
    BTreeMap OperationCompactionKey Operation :=
  ops.foldl (fun latest op => latest.insert (OperationCompactionKey.fromOperation op) op) latest

/-- Put operations into the pending queue, as `requeue_pending_operations` does. -/
def Ledger.requeue (ledger : Ledger) (ops : List Operation) : Ledger :=
  { ledger with pendingOps := ops.foldl CompactedOperations.push ledger.pendingOps }

/-- What happens in one step of the system. -/
inductive SyncEvent where
  /-- A local write call issues operations. -/
  | write (log : List Issued)
  /-- Anything that leaves the pending queue alone: persisting, loading, remote operations. -/
  | other
  | connect
  | disconnect
  /-- A flush attempt takes the pending queue. -/
  | drain
  /-- A task finalizes a change. -/
  | finalized
  /-- Finalizing a change fails in the store. -/
  | storageFailed
  /-- A task cuts its message. -/
  | cut
  | encoded
  | encodingFailed
  | sent (id : ℕ)
  | sendingFailed
  /-- A task puts operations back. -/
  | requeued
  /-- A task enters its message into the inflight table. -/
  | entered
  | acknowledged (id : ℕ)
  /-- A requeue takes the inflight table. -/
  | tookInflight
  /-- A message of the inflight table cannot be decoded. -/
  | decodingFailed

/-- One step of one task: the tasks that follow it and the state around the tasks. -/
inductive SyncTask.Step : SyncTask → SyncState → SyncEvent → List SyncTask → SyncState → Prop
  | finalizeDrain (ops : List Operation) (s : SyncState) :
    Step (.drained ops) s .finalized [.draining ops] s
  | failDrain (ops : List Operation) (s : SyncState) :
    Step (.drained ops) s .storageFailed [] s
  | cut (ops : List Operation) (s : SyncState) (h : max s.maxOpsPerMessage 1 < ops.length) :
    Step (.draining ops) s .cut [.cut (ops.take (max s.maxOpsPerMessage 1))]
      { s with ledger := s.ledger.requeue (ops.drop (max s.maxOpsPerMessage 1)) }
  | fits (ops : List Operation) (s : SyncState) (h : ¬ max s.maxOpsPerMessage 1 < ops.length) :
    Step (.draining ops) s .cut [.ready ops] s
  | finalizeCut (ops : List Operation) (s : SyncState) :
    Step (.cut ops) s .finalized [.ready ops] s
  | failCut (ops : List Operation) (s : SyncState) :
    Step (.cut ops) s .storageFailed [] s
  | encode (ops : List Operation) (s : SyncState) :
    Step (.ready ops) s .encoded [.encoded (nextSeq s.nextMessageSeq) ops]
      { s with nextMessageSeq := nextSeq s.nextMessageSeq }
  | failEncode (ops : List Operation) (s : SyncState) :
    Step (.ready ops) s .encodingFailed []
      { s with nextMessageSeq := nextSeq s.nextMessageSeq }
  | send (id : ℕ) (ops : List Operation) (s : SyncState) (h : s.connected = true) :
    Step (.encoded id ops) s (.sent id) [.sent id ops]
      { s with messages := s.messages.insert id ops }
  | failSend (id : ℕ) (ops : List Operation) (s : SyncState) :
    Step (.encoded id ops) s .sendingFailed [.unsent ops] s
  | putBack (ops : List Operation) (s : SyncState) :
    Step (.unsent ops) s .requeued [] { s with ledger := s.ledger.requeue ops }
  | enter (id : ℕ) (ops : List Operation) (s : SyncState) :
    Step (.sent id ops) s .entered [] { s with inflight := s.inflight.insert id ops }
  | requeue (ops : List Operation) (messages : List (List Operation)) (s : SyncState) :
    Step (.requeueing (ops :: messages)) s .requeued [.requeueing messages]
      { s with ledger := s.ledger.requeue ops }
  | failDecode (ops : List Operation) (messages : List (List Operation)) (s : SyncState) :
    Step (.requeueing (ops :: messages)) s .decodingFailed [.requeueing messages] s
  | requeueDone (s : SyncState) : Step (.requeueing []) s .requeued [] s

/-- One step of the system. Sending a message of the inflight table once more changes nothing. -/
inductive SyncState.Step : SyncState → SyncEvent → SyncState → Prop
  | write (s : SyncState) {log : List Issued} {ledger : Ledger}
      (h : Ledger.Steps s.ledger log ledger) :
    Step s (.write log)
      { s with ledger := ledger, latest := recordLatest s.latest (acceptedOps log) }
  | other (s : SyncState) {ledger : Ledger} (hqueue : ledger.pendingOps = s.ledger.pendingOps)
      (hclock : s.ledger.clock.revision ≤ ledger.clock.revision) :
    Step s .other { s with ledger := ledger }
  | connect (s : SyncState) : Step s .connect { s with connected := true }
  | disconnect (s : SyncState) : Step s .disconnect { s with connected := false }
  | drain (s : SyncState) (hconnected : s.connected = true)
      (hops : s.ledger.pendingOps.operations ≠ []) :
    Step s .drain
      { s with
        ledger := { s.ledger with pendingOps := .empty }
        tasks := .drained s.ledger.pendingOps.operations :: s.tasks }
  | task (s : SyncState) (before after : List SyncTask) {next : List SyncTask} {task : SyncTask}
      {event : SyncEvent} {t : SyncState} (htasks : s.tasks = before ++ task :: after)
      (h : task.Step s event next t) :
    Step s event { t with tasks := before ++ next ++ after }
  | acknowledge (s : SyncState) (id : ℕ) :
    Step s (.acknowledged id)
      { s with
        inflight := s.inflight.erase id
        acknowledged := s.acknowledged ++ s.messages[id]?.getD [] }
  | takeInflight (s : SyncState) :
    Step s .tookInflight
      { s with
        inflight := ∅
        tasks := .requeueing (s.inflight.toList.map Prod.snd) :: s.tasks }

section Writes

variable {σ α : Type} [RecordStore σ]

/-- The write of a chain is a write of the system, up to the persist that ends it. -/
theorem SyncState.chain_step (s : SyncState) {inner : Inner σ} (hledger : inner.ledger = s.ledger)
    (hstore : inner.KeyedStore) (program : Program α) :
    s.Step (.write (program.issued inner))
      { s with
        ledger := (program.exec inner).2.ledger
        latest := recordLatest s.latest (acceptedOps (program.issued inner)) } :=
  .write s (hledger ▸ program.exec_steps hstore)

/-- A transaction that commits is a write of the system, up to the persist that ends it. -/
theorem SyncState.transaction_step (s : SyncState) {db : Database σ}
    (hledger : db.inner.ledger = s.ledger) (hstore : db.inner.KeyedStore) (program : Program α) :
    let start := Session.start db.inner db.scheduledNodeFetches
    let log := Session.issued program start
    s.Step (.write log)
      { s with
        ledger := (db.committed (program.run Session.exec start).2).inner.ledger
        latest := recordLatest s.latest (acceptedOps log) } := by
  intro start log
  rw [db.committed_ledger]
  exact .write s (hledger ▸ Session.run_steps program (s := start) hstore)

end Writes

/-- A run of the system whose events are all allowed in the states they happen in. -/
inductive SyncState.Run (allowed : SyncState → SyncEvent → Prop) (start : SyncState) :
    SyncState → Prop
  | refl : Run allowed start start
  | tail {event : SyncEvent} {s t : SyncState} (h : Run allowed start s)
      (hstep : s.Step event t) (hallowed : allowed s event) : Run allowed start t

/-- The first task takes a step. -/
theorem SyncState.Run.first {start s t : SyncState} (h : Run (fun _ _ => True) start s)
    {task : SyncTask} {next rest : List SyncTask} {event : SyncEvent}
    (htasks : s.tasks = task :: rest) (hstep : task.Step s event next t) :
    Run (fun _ _ => True) start { t with tasks := next ++ rest } :=
  h.tail (.task s [] rest htasks hstep) trivial

section Uninterrupted

variable {δ ρ β ω ψ : Type} [ContentHash ρ β] [ClientHost δ ρ β ω ψ]

/-- The database of a client shows a ledger: draining empties its pending queue, and requeueing
fills it. -/
structure ShowsLedger (ρ β ω ψ : Type) [ClientHost δ ρ β ω ψ] (ledger : δ → Ledger) : Prop where
  /-- What is drained. -/
  drain : ∀ {db after : δ} {sender : String} {ops : List Operation},
    ClientHost.drainSyncEnvelope db = (.ok (sender, ops), after) →
      ops = (ledger db).pendingOps.operations ∧
        ledger after = { ledger db with pendingOps := .empty }
  /-- What is put back. -/
  requeue : ∀ {db after : δ} {ops : List Operation},
    ClientHost.requeuePendingOperations ops db = (.ok (), after) →
      ledger after = (ledger db).requeue ops

/-- A message that is sent and entered is the end of a flush attempt. -/
theorem RelayClient.sendOperations_run {ledger : δ → Ledger} {now count : ℕ} {sender : String}
    {ops : List Operation} {client after : RelayClient δ ρ β ω ψ} {start s : SyncState}
    {rest : List SyncTask} (h : sendOperations now sender ops client = (.ok count, after))
    (hrun : SyncState.Run (fun _ _ => True) start s) (htasks : s.tasks = .ready ops :: rest)
    (hledger : s.ledger = ledger client.db) (hconnected : s.connected = true)
    (hseq : s.nextMessageSeq = client.nextMessageSeq)
    (hroom : client.nextMessageSeq + 1 < 2 ^ 64) :
    ops.length = count ∧ ∃ t, SyncState.Run (fun _ _ => True) start t ∧
      t.ledger = ledger after.db ∧ t.tasks = rest ∧ t.nextMessageSeq = after.nextMessageSeq ∧
      t.inflight = s.inflight.insert t.nextMessageSeq ops := by
  rw [sendOperations, Effect.get_bind] at h
  obtain ⟨_, numbered, hnumbered, hencode⟩ := Effect.bind_eq_ok h
  cases hnumbered
  obtain ⟨⟨encoding, payload⟩, encoded, hencoded, hwrap⟩ := Effect.bind_eq_ok hencode
  obtain ⟨-, rfl⟩ := Prod.mk.inj hencoded
  obtain ⟨route, wrapped, hwrapped, hsend⟩ := Effect.bind_eq_ok hwrap
  cases hwrapped
  have hend := ((hrun.first htasks (.encode ops s)).first rfl (.send _ ops _ hconnected)).first rfl
    (.enter _ ops _)
  have hnext : nextSeq s.nextMessageSeq = client.nextMessageSeq + 1 := by
    rw [nextSeq, hseq, Nat.mod_eq_of_lt hroom]
  split at hsend
  next sent hsent =>
    cases hsend
    obtain rfl := sendRoute_ok hsent
    exact ⟨rfl, _, hend, hledger, rfl, hnext, rfl⟩
  next => cases hsend

/-- A flush of the client that succeeds is a flush attempt of the system without interruption: the
message leaves the pending queue and is entered under the next number. -/
theorem RelayClient.flushPending_run {ledger : δ → Ledger}
    (hshows : ShowsLedger ρ β ω ψ ledger) {now count : ℕ} {client after : RelayClient δ ρ β ω ψ}
    {s : SyncState} (hledger : s.ledger = ledger client.db)
    (hconnected : s.connected = client.connected)
    (hmax : s.maxOpsPerMessage = ClientHost.maxOpsPerMessage client.db)
    (hseq : s.nextMessageSeq = client.nextMessageSeq)
    (hroom : client.nextMessageSeq + 1 < 2 ^ 64)
    (h : flushPending now client = (.ok (count + 1), after)) :
    ∃ t, SyncState.Run (fun _ _ => True) s t ∧ t.ledger = ledger after.db ∧ t.tasks = s.tasks ∧
      t.nextMessageSeq = after.nextMessageSeq ∧ ∃ ops, ops.length = count + 1 ∧
        t.inflight = s.inflight.insert t.nextMessageSeq ops := by
  rw [flushPending, Effect.get_bind] at h
  cases hclient : client.connected with
  | false =>
    rw [hclient] at h
    cases h
  | true =>
    rw [hclient] at h
    obtain ⟨⟨sender, drained⟩, taken, hdrain, h⟩ := Effect.bind_eq_ok h
    obtain ⟨hfirst, rfl⟩ := Prod.mk.inj hdrain
    obtain ⟨hops, hdrained⟩ := hshows.drain (Prod.ext hfirst rfl)
    rw [← hledger] at hops hdrained
    dsimp only at h
    cases hempty : drained.isEmpty with
    | true =>
      rw [hempty] at h
      cases h
    | false =>
      rw [hempty, if_neg Bool.false_ne_true] at h
      have hne : s.ledger.pendingOps.operations ≠ [] :=
        hops ▸ List.isEmpty_eq_false_iff.mp hempty
      have hrun := (SyncState.Run.tail .refl (.drain s (hconnected.trans hclient) hne)
        trivial).first rfl (.finalizeDrain _ _)
      rw [← hops] at hrun
      rw [← hmax] at h
      by_cases hlong : max s.maxOpsPerMessage 1 < drained.length
      · rw [if_pos hlong] at h
        obtain ⟨_, cut, hcut, h⟩ := Effect.bind_eq_ok h
        obtain ⟨hfirst, rfl⟩ := Prod.mk.inj hcut
        have hrequeue := hshows.requeue (Prod.ext hfirst rfl)
        obtain ⟨hlength, hend⟩ := sendOperations_run h
          ((hrun.first rfl (.cut drained _ hlong)).first rfl (.finalizeCut _ _)) rfl
          (hdrained ▸ hrequeue).symm (hconnected.trans hclient) hseq hroom
        exact hend.imp fun t ⟨ht, hledger, htasks, hseq, hinflight⟩ =>
          ⟨ht, hledger, htasks, hseq, _, hlength, hinflight⟩
      · rw [if_neg hlong, List.take_of_length_le (not_lt.mp hlong)] at h
        obtain ⟨hlength, hend⟩ := sendOperations_run h (hrun.first rfl (.fits drained _ hlong))
          rfl hdrained.symm (hconnected.trans hclient) hseq hroom
        exact hend.imp fun t ⟨ht, hledger, htasks, hseq, hinflight⟩ =>
          ⟨ht, hledger, htasks, hseq, drained, hlength, hinflight⟩

end Uninterrupted

end Primadb
