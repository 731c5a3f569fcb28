import Primadb.Net.Mesh
import Primadb.Sync.Flush

/-!
# Sending local operations in a mesh

A mesh client sends each message to every peer with an open channel and keeps it in the
inflight table with the peers it waits for. Peers acknowledge one by one, and a peer that
leaves is taken out of every message. A flush lists the peers, drains the queue, sends to
one peer after another and enters the message only then; acknowledgements, removals and
other flushes come in between, so a flush is a task that takes several steps.
-/

namespace Primadb

/-- A message with the peers it waits for. -/
structure Flight (κ : Type) where
  message : κ
  /-- The peers. -/
  awaiting : BTreeMap String Bool
  deriving DecidableEq

section Flights

variable {ι κ : Type} [Ord ι] [Std.TransOrd ι] [Std.LawfulEqOrd ι]

/-- The acknowledgement of one peer; the message goes with the last one. -/
def acknowledgeFlight (inflight : BTreeMap ι (Flight κ)) (id : ι) (peer : String) :
    BTreeMap ι (Flight κ) :=
  match inflight[id]? with
  | none => inflight
  | some flight =>
    let awaiting := flight.awaiting.erase peer
    if awaiting.isEmpty then inflight.erase id
    else inflight.insert id { flight with awaiting := awaiting }

/-- A peer leaves: the messages that still wait for somebody, and those that wait for nobody. -/
def removePeerFromFlights (inflight : BTreeMap ι (Flight κ)) (peer : String) :
    BTreeMap ι (Flight κ) × List κ :=
  let inflight := inflight.map fun _ flight =>
    { flight with awaiting := flight.awaiting.erase peer }
  (inflight.filter fun _ flight => !flight.awaiting.isEmpty,
    (inflight.filter fun _ flight => flight.awaiting.isEmpty).toList.map (·.2.message))

variable [DecidableEq ι]

/-- An entry after an acknowledgement is one from before with no other peers. -/
theorem acknowledgeFlight_sub {inflight : BTreeMap ι (Flight κ)} {id i : ι} {peer : String}
    {after : Flight κ} (h : (acknowledgeFlight inflight id peer)[i]? = some after) :
    ∃ flight, inflight[i]? = some flight ∧ after.message = flight.message := by
  unfold acknowledgeFlight at h
  split at h
  · exact ⟨after, h, rfl⟩
  · rename_i flight hflight
    dsimp only at h
    split at h
    · rw [BTreeMap.get_erase] at h
      split at h
      · cases h
      · exact ⟨after, h, rfl⟩
    · rw [BTreeMap.get_insert] at h
      split at h
      · rename_i hid
        cases h
        exact ⟨flight, hid ▸ hflight, rfl⟩
      · exact ⟨after, h, rfl⟩

/-- Everybody else is still waited for after an acknowledgement. -/
theorem acknowledgeFlight_keeps {inflight : BTreeMap ι (Flight κ)} {id i : ι}
    {peer other : String} {flight : Flight κ} (hflight : inflight[i]? = some flight)
    (hother : other ∈ flight.awaiting) (hne : i = id → other ≠ peer) :
    ∃ after, (acknowledgeFlight inflight id peer)[i]? = some after ∧
      after.message = flight.message ∧ other ∈ after.awaiting := by
  unfold acknowledgeFlight
  split
  · exact ⟨flight, hflight, rfl, hother⟩
  · rename_i acknowledged hacknowledged
    by_cases hid : id = i
    · subst hid
      rw [hflight, Option.some.injEq] at hacknowledged
      subst hacknowledged
      have hstays : other ∈ flight.awaiting.erase peer := by
        rw [Std.ExtTreeMap.mem_erase]
        exact ⟨by simpa using Ne.symm (hne rfl), hother⟩
      have hwaits : ¬(flight.awaiting.erase peer).isEmpty = true := fun hempty => by
        rw [Std.ExtTreeMap.isEmpty_iff] at hempty
        rw [hempty] at hstays
        exact Std.ExtTreeMap.not_mem_empty hstays
      rw [if_neg hwaits, BTreeMap.get_insert, if_pos rfl]
      exact ⟨_, rfl, rfl, hstays⟩
    · refine ⟨flight, ?_, rfl, hother⟩
      dsimp only
      split
      · rw [BTreeMap.get_erase, if_neg hid, hflight]
      · rw [BTreeMap.get_insert, if_neg hid, hflight]

omit [DecidableEq ι] in
/-- What is left of a flight when a peer goes. -/
theorem removePeerFromFlights_get (inflight : BTreeMap ι (Flight κ)) (peer : String) (i : ι) :
    (removePeerFromFlights inflight peer).1[i]? =
      (inflight[i]?.map fun flight =>
        { flight with awaiting := flight.awaiting.erase peer }).filter
          fun flight => !flight.awaiting.isEmpty := by
  rw [removePeerFromFlights, Std.ExtTreeMap.getElem?_filter', Std.ExtTreeMap.getElem?_map]

omit [DecidableEq ι] in
/-- The messages that wait for nobody after a peer left. -/
theorem mem_removePeerFromFlights {inflight : BTreeMap ι (Flight κ)} {peer : String}
    {message : κ} : message ∈ (removePeerFromFlights inflight peer).2 ↔
      ∃ (i : ι) (flight : Flight κ), inflight[i]? = some flight ∧ flight.message = message ∧
        (flight.awaiting.erase peer).isEmpty = true := by
  rw [removePeerFromFlights, List.mem_map]
  constructor
  · rintro ⟨⟨i, after⟩, hmem, rfl⟩
    rw [Std.ExtTreeMap.mem_toList_iff_getElem?_eq_some, Std.ExtTreeMap.getElem?_filter',
      Std.ExtTreeMap.getElem?_map, Option.filter_eq_some_iff, Option.map_eq_some_iff] at hmem
    obtain ⟨⟨flight, hflight, rfl⟩, hempty⟩ := hmem
    exact ⟨i, flight, hflight, rfl, hempty⟩
  · rintro ⟨i, flight, hflight, rfl, hempty⟩
    refine ⟨(i, { flight with awaiting := flight.awaiting.erase peer }), ?_, rfl⟩
    rw [Std.ExtTreeMap.mem_toList_iff_getElem?_eq_some, Std.ExtTreeMap.getElem?_filter',
      Std.ExtTreeMap.getElem?_map, hflight]
    exact Option.filter_eq_some_iff.mpr ⟨rfl, hempty⟩

end Flights

/-- A flush or a removal between two of its steps. -/
inductive MeshTask where
  /-- The open peers are listed; the pending queue is to be taken. -/
  | listed (peers : List String)
  /-- The queue was taken; the change is to be finalized. -/
  | drained (peers : List String) (ops : List Operation)
  /-- The message is to be cut to its greatest length. -/
  | draining (peers : List String) (ops : List Operation)
  /-- The message is to be numbered and encoded. -/
  | ready (peers : List String) (ops : List Operation)
  /-- The message is to be sent to the remaining peers; it was sent to some. -/
  | sending (id : ℕ) (ops : List Operation) (remaining : List String)
    (awaiting : BTreeMap String Bool)
  /-- Messages of a peer that left are to be put back. -/
  | requeueing (messages : List (List Operation))

/-- The operations only the task holds. -/
def MeshTask.ops : MeshTask → List Operation
  | listed _ => []
  | drained _ ops | draining _ ops | ready _ ops | sending _ ops _ _ => ops
  | requeueing messages => messages.flatten

/-- A database with its mesh client. The last three fields are history: the operations of each
message, the peers each was sent to, and the peers that acknowledged it. -/
structure MeshSync where
  /-- The pending queue. -/
  pendingOps : CompactedOperations
  maxOpsPerMessage : ℕ
  /-- Peers with an open channel. -/
  openPeers : BTreeSet String
  /-- Number of the last message. -/
  nextMessageSeq : ℕ
  /-- Messages without all acknowledgements. -/
  inflight : BTreeMap ℕ (Flight (List Operation))
  /-- Running flushes and removals. -/
  tasks : List MeshTask
  messages : BTreeMap ℕ (List Operation)
  /-- The sends that succeeded. -/
  delivered : List (ℕ × String)
  acknowledged : List (ℕ × String)

/-- What happens in one step of the system. -/
inductive MeshEvent where
  /-- Local writes put operations into the pending queue. -/
  | write (ops : List Operation)
  /-- A channel opens. -/
  | opened (peer : String)
  /-- `flush_mesh_pending_state` is called. -/
  | flush
  /-- The next step of a task succeeds or fails. -/
  | task (index : ℕ) (success : Bool)
  /-- A peer acknowledges a message. -/
  | acknowledged (id : ℕ) (peer : String)
  /-- `remove_mesh_peer_state` is called. -/
  | removed (peer : String)

namespace MeshSync

/-- Put operations back into the pending queue. -/
def requeue (s : MeshSync) (ops : List Operation) : MeshSync :=
  { s with pendingOps := ops.foldl CompactedOperations.push s.pendingOps }

/-- The next step of a task: the task that follows, if any, and the state around the tasks. A step
with nothing that could fail succeeds whatever is asked for. -/
def advance (s : MeshSync) (success : Bool) : MeshTask → List MeshTask × MeshSync
  | .listed peers =>
    let ops := s.pendingOps.operations
    (if ops.isEmpty then [] else [.drained peers ops], { s with pendingOps := .empty })
  | .drained peers ops => (if success then [.draining peers ops] else [], s)
  | .draining peers ops =>
    let limit := max s.maxOpsPerMessage 1
    if limit < ops.length then
      ([.ready peers (ops.take limit)], s.requeue (ops.drop limit))
    else ([.ready peers ops], s)
  | .ready peers ops =>
    let id := nextSeq s.nextMessageSeq
    let s := { s with nextMessageSeq := id }
    if success then
      ([.sending id ops peers ∅], { s with messages := s.messages.insert id ops })
    else ([], s)
  | .sending id ops (peer :: remaining) awaiting =>
    if success && s.openPeers.contains peer then
      ([.sending id ops remaining (awaiting.insert peer false)],
        { s with delivered := s.delivered ++ [(id, peer)] })
    else ([.sending id ops remaining awaiting], s)
  | .sending id ops [] awaiting =>
    if awaiting.isEmpty then ([], s.requeue ops)
    else ([], { s with inflight := s.inflight.insert id ⟨ops, awaiting⟩ })
  | .requeueing [] => ([], s)
  | .requeueing (ops :: messages) =>
    ([.requeueing messages], if success then s.requeue ops else s)

/-- One step of the system. Sending a message of the inflight table once more changes nothing. -/
def step (s : MeshSync) : MeshEvent → MeshSync
  | .write ops => s.requeue ops
  | .opened peer => { s with openPeers := s.openPeers.insert peer }
  | .flush =>
    if s.openPeers.isEmpty then s
    else { s with tasks := s.tasks ++ [.listed s.openPeers.toList] }
  | .task index success =>
    match s.tasks[index]? with
    | none => s
    | some task =>
      let (next, t) := s.advance success task
      { t with tasks := s.tasks.take index ++ next ++ s.tasks.drop (index + 1) }
  | .acknowledged id peer =>
    { s with
      inflight := acknowledgeFlight s.inflight id peer
      acknowledged := s.acknowledged ++ [(id, peer)] }
  | .removed peer =>
    let (inflight, emptied) := removePeerFromFlights s.inflight peer
    { s with
      openPeers := s.openPeers.erase peer
      inflight := inflight
      tasks := s.tasks ++ [.requeueing emptied] }

/-- A client without messages. -/
structure Fresh (s : MeshSync) : Prop where
  /-- The queue holds one operation of a slot. -/
  wf : s.pendingOps.Wf
  /-- Nothing runs. -/
  tasks : s.tasks = []
  /-- Nothing is inflight. -/
  inflight : s.inflight = ∅
  /-- Nothing was sent. -/
  delivered : s.delivered = []

/-- The operation was sent to a peer. -/
def SentTo (s : MeshSync) (op : Operation) (peer : String) : Prop :=
  ∃ (id : ℕ) (ops : List Operation),
    s.messages[id]? = some ops ∧ op ∈ ops ∧ (id, peer) ∈ s.delivered

/-- A peer acknowledged the operation. -/
def AckedBy (s : MeshSync) (op : Operation) (peer : String) : Prop :=
  ∃ (id : ℕ) (ops : List Operation),
    s.messages[id]? = some ops ∧ op ∈ ops ∧ (id, peer) ∈ s.acknowledged

/-- The operation is in the pending queue or in the inflight table. -/
def Queued (s : MeshSync) (op : Operation) : Prop :=
  op ∈ s.pendingOps.operations ∨
    ∃ (id : ℕ) (flight : Flight (List Operation)),
      s.inflight[id]? = some flight ∧ op ∈ flight.message

/-- The operation is in the hands of a running task. -/
def InHand (s : MeshSync) (op : Operation) : Prop := op ∈ s.tasks.flatMap MeshTask.ops

end MeshSync

end Primadb
