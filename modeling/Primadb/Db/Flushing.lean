import Primadb.Core.Run
import Primadb.Db.Footprint

/-!
# Flushing the unflushed queue

A storage transaction is built from the queue, applied by the engine and then marked as
flushed. Operations are pushed at any time in between. Marking compares the head of the queue
with the operations of the transaction and drops it only when the two agree, so an operation
that entered the queue after the transaction was built is not dropped with it.
-/

namespace Primadb

open OperationCompactionKey

/-- A database whose queue is flushed by one transaction after another. -/
structure Flushing (σ : Type) where
  /-- The database. -/
  inner : Inner σ
  /-- The transaction under way, and whether the engine has applied it. -/
  flight : Option (StorageTransaction × Bool)
  /-- Transactions that were applied and marked. -/
  flushed : List StorageTransaction

/-- What happens to the queue and the transaction. -/
inductive FlushEvent where
  | push (op : Operation)
  /-- A transaction is built. -/
  | build
  /-- The engine applies the transaction. -/
  | apply
  /-- The engine reports an error. -/
  | fail
  /-- The applied transaction is marked. -/
  | mark
  deriving DecidableEq

namespace Flushing

variable {σ : Type}

/-- One event; what is not due does nothing. -/
def step (s : Flushing σ) : FlushEvent → Flushing σ
  | .push op => { s with inner.unflushedOps := s.inner.unflushedOps.push op }
  | .build =>
    match s.flight with
    | none => { s with flight := some (s.inner.storageTransaction, false) }
    | some _ => s
  | .apply =>
    match s.flight with
    | some (tx, false) => { s with flight := some (tx, true) }
    | some (_, true) | none => s
  | .fail =>
    match s.flight with
    | some (_, false) => { s with flight := none }
    | some (_, true) | none => s
  | .mark =>
    match s.flight with
    | some (tx, true) =>
      { inner := s.inner.markStorageTransactionFlushed tx, flight := none
        flushed := s.flushed ++ [tx] }
    | some (_, false) | none => s

/-- A database with an empty queue and no transaction. -/
def start (inner : Inner σ) : Flushing σ := ⟨{ inner with unflushedOps := .empty }, none, []⟩

/-- The queued operations. -/
def queue (s : Flushing σ) : List Operation := s.inner.unflushedOps.operations

private theorem markStorageTransactionFlushed_queue (inner : Inner σ) (tx : StorageTransaction) :
    (inner.markStorageTransactionFlushed tx).unflushedOps =
      (inner.markDurableOperationsFlushed tx.journalOps).unflushedOps := by
  obtain ⟨overlay, keys, heq⟩ := Inner.clearFlushedRecordOverlay_eq
    { inner.markDurableOperationsFlushed tx.journalOps with
      nextStorageTxId :=
        max (inner.markDurableOperationsFlushed tx.journalOps).nextStorageTxId (txSucc tx.id) } tx
  rw [Inner.markStorageTransactionFlushed, heq]

private theorem mem_markStorageTransactionFlushed {inner : Inner σ} {tx : StorageTransaction}
    {o : Operation} (h : o ∈ inner.unflushedOps.operations) :
    o ∈ (inner.markStorageTransactionFlushed tx).unflushedOps.operations ∨ o ∈ tx.journalOps := by
  rw [markStorageTransactionFlushed_queue, Inner.markDurableOperationsFlushed]
  split
  · exact Or.inl h
  split
  · rename_i hhead
    rw [← List.take_append_drop tx.journalOps.length inner.unflushedOps.operations] at h
    rcases List.mem_append.mp h with h | h
    · exact Or.inr (hhead ▸ h)
    · exact Or.inl h
  · exact Or.inl h

/-- Only a push and the marking of an applied transaction touch the queue and the flushed
transactions. -/
theorem step_cases (s : Flushing σ) (event : FlushEvent) :
    (∃ op, event = .push op) ∨
      (∃ tx, s.flight = some (tx, true) ∧
        s.step event = ⟨s.inner.markStorageTransactionFlushed tx, none, s.flushed ++ [tx]⟩) ∨
      (s.step event).inner = s.inner ∧ (s.step event).flushed = s.flushed := by
  cases event with
  | push op => exact Or.inl ⟨op, rfl⟩
  | build =>
    simp only [step]
    split <;> exact Or.inr (Or.inr ⟨rfl, rfl⟩)
  | apply =>
    simp only [step]
    split <;> exact Or.inr (Or.inr ⟨rfl, rfl⟩)
  | fail =>
    simp only [step]
    split <;> exact Or.inr (Or.inr ⟨rfl, rfl⟩)
  | mark =>
    simp only [step]
    split
    · rename_i tx hflight
      exact Or.inr (Or.inl ⟨tx, hflight, rfl⟩)
    · exact Or.inr (Or.inr ⟨rfl, rfl⟩)
    · exact Or.inr (Or.inr ⟨rfl, rfl⟩)

/-- Every event keeps the positions of the queue. -/
theorem wf_step {s : Flushing σ} (h : s.inner.unflushedOps.Wf) (event : FlushEvent) :
    (s.step event).inner.unflushedOps.Wf := by
  rcases s.step_cases event with ⟨op, rfl⟩ | ⟨tx, -, heq⟩ | ⟨hinner, -⟩
  · exact h.push op
  · rw [heq, markStorageTransactionFlushed_queue, Inner.markDurableOperationsFlushed]
    split
    · exact h
    split
    · exact h.drainPrefix _
    · exact h
  · rw [hinner]
    exact h

/-- An operation stands for another: it is the same one, or one of its key that was pushed among
the later events and is not older. -/
def StandsFor (later : List FlushEvent) (op o : Operation) : Prop :=
  fromOperation o = fromOperation op ∧
    (o = op ∨ FlushEvent.push o ∈ later ∧ op.revision ≤ o.revision)

/-- An operation is kept: what stands for it is queued or was flushed. -/
def Keeps (later : List FlushEvent) (op : Operation) (s : Flushing σ) : Prop :=
  ∃ o, StandsFor later op o ∧ (o ∈ s.queue ∨ ∃ tx ∈ s.flushed, o ∈ tx.journalOps)

private theorem StandsFor.more {later : List FlushEvent} {op o : Operation}
    (h : StandsFor later op o) (event : FlushEvent) : StandsFor (later ++ [event]) op o :=
  ⟨h.1, h.2.imp_right fun h => ⟨List.mem_append_left _ h.1, h.2⟩⟩

/-- A push keeps an operation: it stays, or the pushed one takes its place. -/
theorem standsFor_push {queue : CompactedOperations} (hwf : queue.Wf) {later : List FlushEvent}
    {op o : Operation} (h : StandsFor later op o) (ho : o ∈ queue.operations) (pushed : Operation) :
    ∃ o', StandsFor (later ++ [.push pushed]) op o' ∧ o' ∈ (queue.push pushed).operations := by
  rw [hwf.mem_iff_entry] at ho
  have hentry := hwf.entry_push pushed (fromOperation o)
  by_cases hkey : fromOperation pushed = fromOperation o
  · rw [if_pos hkey, ho] at hentry
    change (queue.push pushed).entry _ = some (o.newer pushed) at hentry
    have hmem := List.mem_of_find?_eq_some hentry
    rw [Operation.newer] at hmem
    split at hmem
    · rename_i hnewer
      refine ⟨pushed, ⟨hkey.trans h.1, Or.inr ⟨by simp, ?_⟩⟩, hmem⟩
      rcases h.2 with rfl | ⟨-, hle⟩
      · exact hnewer
      · exact hle.trans hnewer
    · exact ⟨o, h.more _, hmem⟩
  · rw [if_neg hkey, ho] at hentry
    exact ⟨o, h.more _, List.mem_of_find?_eq_some hentry⟩

private theorem Keeps.step {s : Flushing σ} (hwf : s.inner.unflushedOps.Wf)
    {later : List FlushEvent} {op : Operation} (h : Keeps later op s) (event : FlushEvent) :
    Keeps (later ++ [event]) op (s.step event) := by
  obtain ⟨o, hstands, hkept⟩ := h
  rcases s.step_cases event with ⟨pushed, rfl⟩ | ⟨tx, -, heq⟩ | ⟨hinner, hflushed⟩
  · rcases hkept with ho | hflushed
    · obtain ⟨o', hstands', ho'⟩ := standsFor_push hwf hstands ho pushed
      exact ⟨o', hstands', Or.inl ho'⟩
    · exact ⟨o, hstands.more _, Or.inr hflushed⟩
  · refine ⟨o, hstands.more event, ?_⟩
    rw [heq]
    rcases hkept with ho | ⟨other, hother, ho⟩
    · exact (mem_markStorageTransactionFlushed ho).imp_right fun ho => ⟨tx, by simp, ho⟩
    · exact Or.inr ⟨other, List.mem_append_left _ hother, ho⟩
  · refine ⟨o, hstands.more event, ?_⟩
    rw [queue, hinner, hflushed]
    exact hkept

private theorem keeps_run {s : Flushing σ} (hwf : s.inner.unflushedOps.Wf) {op : Operation}
    (hop : op ∈ s.queue) (later : List FlushEvent) :
    Keeps later op (later.foldl Flushing.step s) := by
  induction later using List.reverseRecOn with
  | nil => exact ⟨op, ⟨rfl, Or.inl rfl⟩, Or.inl hop⟩
  | append_singleton later event ih =>
    rw [List.foldl_append]
    have hlater : (later.foldl Flushing.step s).inner.unflushedOps.Wf :=
      Run.invariant (I := fun s : Flushing σ => s.inner.unflushedOps.Wf)
        (fun _ event h => wf_step h event) hwf later
    exact Keeps.step hlater ih event

/-- A pushed operation is queued, unless a newer one of its key is. -/
theorem queued_push {queue : CompactedOperations} (hwf : queue.Wf) (op : Operation) :
    op ∈ (queue.push op).operations ∨
      ∃ o ∈ (queue.push op).operations, fromOperation o = fromOperation op ∧
        op.revision < o.revision := by
  have hentry := hwf.entry_push op (fromOperation op)
  rw [if_pos rfl] at hentry
  have hmem := List.mem_of_find?_eq_some hentry
  cases hold : queue.entry (fromOperation op) with
  | none =>
    rw [hold] at hmem
    exact Or.inl hmem
  | some old =>
    rw [hold] at hmem
    change old.newer op ∈ _ at hmem
    rw [Operation.newer] at hmem
    split at hmem
    · exact Or.inl hmem
    · rename_i hnewer
      exact Or.inr ⟨old, hmem, CompactedOperations.fromOperation_of_entry hold, not_le.mp hnewer⟩

/-- In every state of every run of pushes and flushes: a key is queued once and at the position
recorded for it; marking drops only operations of the marked transaction; and what is queued, a
pushed operation unless a newer one of its key is there, stays itself or by a later push of its
key that is not older, until an applied transaction that holds it is marked. -/
theorem forgets_nothing (inner : Inner σ) (events : List FlushEvent) :
    let s := events.foldl step (start inner)
    (s.queue.map fromOperation).Nodup ∧ s.inner.unflushedOps.Wf ∧
      (∀ tx, s.flight = some (tx, true) → ∀ o ∈ s.queue, o ∉ (s.step .mark).queue →
        o ∈ tx.journalOps) ∧
      (∀ op, op ∈ (s.step (.push op)).queue ∨ ∃ o ∈ (s.step (.push op)).queue,
        fromOperation o = fromOperation op ∧ op.revision < o.revision) ∧
      ∀ op ∈ s.queue, ∀ later, Keeps later op (later.foldl step { s with flushed := [] }) := by
  intro s
  have hwf : s.inner.unflushedOps.Wf :=
    Run.invariant (I := fun s : Flushing σ => s.inner.unflushedOps.Wf)
      (fun _ event h => wf_step h event) CompactedOperations.Wf.empty events
  refine ⟨hwf.nodup, hwf, ?_, fun op => queued_push hwf op, fun op hop later => ?_⟩
  · intro tx hflight o ho hdropped
    have hmark : s.step .mark =
        ⟨s.inner.markStorageTransactionFlushed tx, none, s.flushed ++ [tx]⟩ := by
      simp only [step, hflight]
    rw [hmark] at hdropped
    exact (mem_markStorageTransactionFlushed ho).resolve_left hdropped
  · exact keeps_run (s := { s with flushed := [] }) hwf hop later

end Flushing

end Primadb
