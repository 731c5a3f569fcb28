import Primadb.Core.Run
import Primadb.Sync.MeshFlush

/-!
# Custody of operations in a mesh

An operation that was sent to a peer and not acknowledged by it stays in the pending queue,
in the inflight table or in the hands of a task, as long as no peer leaves while a message
with the operation waits for it and for others, and the operation is not sent again without
the peers that still owe an acknowledgement.
-/

namespace Primadb

open OperationCompactionKey

namespace MeshSync

variable {s : MeshSync} {op : Operation}

/-- An operation that is not newer in the slot of another. -/
def NotNewer (op other : Operation) : Prop :=
  fromOperation other = fromOperation op → other = op ∨ other.revision < op.revision

/-- The events after which an operation is kept: no newer one of its slot is written, nothing
fails that drops it, a message number is new, the message it is entered with was sent to every
peer that owes an acknowledgement of it, and a peer leaves only when no message with the
operation waits for it and for others. -/
def Benign (op : Operation) (s : MeshSync) : MeshEvent → Prop
  | .write ops => ∀ other ∈ ops, NotNewer op other
  | .task index success =>
    match s.tasks[index]? with
    | some (.drained _ ops) => op ∈ ops → success = true
    | some (.ready _ ops) =>
      s.messages[nextSeq s.nextMessageSeq]? = none ∧ (op ∈ ops → success = true)
    | some (.sending _ ops [] awaiting) =>
      op ∈ ops → awaiting.isEmpty = false →
        ∀ peer, s.SentTo op peer → s.AckedBy op peer ∨ peer ∈ awaiting
    | some (.requeueing (ops :: _)) => op ∈ ops → success = true
    | _ => True
  | .removed peer =>
    ∀ (id : ℕ) (flight : Flight (List Operation)), s.inflight[id]? = some flight →
      op ∈ flight.message → peer ∈ flight.awaiting → (flight.awaiting.erase peer).isEmpty = true
  | _ => True

/-- A message with the operation waits for the peer. -/
def AwaitedBy (s : MeshSync) (op : Operation) (peer : String) : Prop :=
  ∃ (id : ℕ) (flight : Flight (List Operation)),
    s.inflight[id]? = some flight ∧ op ∈ flight.message ∧ peer ∈ flight.awaiting

/-- What holds in every state of a benign run. -/
structure Custody (op : Operation) (s : MeshSync) : Prop where
  /-- The queue holds one operation of a slot. -/
  wf : s.pendingOps.Wf
  /-- Nothing newer of the slot is held. -/
  newest : ∀ other, s.Queued other ∨ s.InHand other → NotNewer op other
  /-- Inflight messages are known by their numbers. -/
  inflight : ∀ (id : ℕ) (flight : Flight (List Operation)), s.inflight[id]? = some flight →
    s.messages[id]? = some flight.message
  /-- So are those being sent. -/
  sending : ∀ id ops remaining awaiting, MeshTask.sending id ops remaining awaiting ∈ s.tasks →
    s.messages[id]? = some ops
  /-- And those that were sent. -/
  delivered : ∀ id peer, (id, peer) ∈ s.delivered → (s.messages[id]?).isSome = true
  /-- Who owes an acknowledgement is waited for, or the operation is to be sent again. -/
  covered : ∀ peer, s.SentTo op peer → s.AckedBy op peer ∨ op ∈ s.pendingOps.operations ∨
    s.InHand op ∨ s.AwaitedBy op peer

/-- A fresh client with nothing newer of the slot. -/
theorem Custody.start (h : s.Fresh) (hnewest : ∀ other ∈ s.pendingOps.operations,
    NotNewer op other) : Custody op s where
  wf := h.wf
  newest other hother := by
    rcases hother with (hother | ⟨id, flight, hflight, -⟩) | hother
    · exact hnewest other hother
    · rw [h.inflight] at hflight
      cases hflight
    · rw [InHand, h.tasks] at hother
      cases hother
  inflight id flight hflight := by
    rw [h.inflight] at hflight
    cases hflight
  sending id ops remaining awaiting hmem := by
    rw [h.tasks] at hmem
    cases hmem
  delivered id peer hmem := by
    rw [h.delivered] at hmem
    cases hmem
  covered peer hsent := by
    obtain ⟨id, ops, -, -, hmem⟩ := hsent
    rw [h.delivered] at hmem
    cases hmem

namespace Custody

variable {task : MeshTask} {ops : List Operation} {index : ℕ} {peer : String} {t : MeshSync}

private theorem mem_tasks (hindex : s.tasks[index]? = some task) (other : MeshTask) :
    other ∈ s.tasks ↔
      other = task ∨ other ∈ s.tasks.take index ∨ other ∈ s.tasks.drop (index + 1) := by
  obtain ⟨hlt, heq⟩ := List.getElem?_eq_some_iff.mp hindex
  have hsplit : s.tasks = s.tasks.take index ++ task :: s.tasks.drop (index + 1) := by
    rw [← heq, List.getElem_cons_drop, List.take_append_drop]
  conv_lhs => rw [hsplit]
  simp only [List.mem_append, List.mem_cons]
  tauto

/-- What is in hand while one task moves on. -/
theorem inHand_iff (hindex : s.tasks[index]? = some task) (other : Operation) :
    s.InHand other ↔ other ∈ task.ops ∨
      other ∈ (s.tasks.take index).flatMap MeshTask.ops ∨
      other ∈ (s.tasks.drop (index + 1)).flatMap MeshTask.ops := by
  simp only [InHand, List.mem_flatMap, mem_tasks hindex]
  constructor
  · rintro ⟨task', rfl | hmem | hmem, hop⟩
    · exact .inl hop
    · exact .inr (.inl ⟨task', hmem, hop⟩)
    · exact .inr (.inr ⟨task', hmem, hop⟩)
  · rintro (hop | ⟨task', hmem, hop⟩ | ⟨task', hmem, hop⟩)
    · exact ⟨task, .inl rfl, hop⟩
    · exact ⟨task', .inr (.inl hmem), hop⟩
    · exact ⟨task', .inr (.inr hmem), hop⟩

/-- What was sent to a peer among known messages is still known as sent to it. -/
theorem sentTo_of (h : Custody op s)
    (hmessages : ∀ (id : ℕ) ops, s.messages[id]? = some ops → t.messages[id]? = some ops) {id : ℕ}
    (hops : t.messages[id]? = some ops) (hop : op ∈ ops) (hdelivered : (id, peer) ∈ s.delivered) :
    s.SentTo op peer := by
  obtain ⟨known, hknown⟩ := Option.isSome_iff_exists.mp (h.delivered id peer hdelivered)
  have hsame := hmessages id known hknown
  rw [hops, Option.some.injEq] at hsame
  exact ⟨id, known, hknown, hsame ▸ hop, hdelivered⟩

/-- Acknowledgements of known messages stay. -/
theorem ackedBy_of
    (hmessages : ∀ (id : ℕ) ops, s.messages[id]? = some ops → t.messages[id]? = some ops)
    (hacknowledged : s.acknowledged ⊆ t.acknowledged) (h : s.AckedBy op peer) :
    t.AckedBy op peer := by
  obtain ⟨id, ops, hops, hop, hmem⟩ := h
  exact ⟨id, ops, hmessages id ops hops, hop, hacknowledged hmem⟩

/-- A task moves on: it puts operations back and keeps others in hand, numbers a message or sends
it to a peer. -/
theorem passOn (h : Custody op s) (hindex : s.tasks[index]? = some task) (next : List MeshTask)
    (back : List Operation)
    (hpending : t.pendingOps = back.foldl CompactedOperations.push s.pendingOps)
    (hinflight : t.inflight = s.inflight) (hacknowledged : t.acknowledged = s.acknowledged)
    (hmessages : ∀ (id : ℕ) ops, s.messages[id]? = some ops → t.messages[id]? = some ops)
    (hdelivered : ∀ id peer, (id, peer) ∈ t.delivered → (id, peer) ∈ s.delivered ∨
      ∃ ops, t.messages[id]? = some ops ∧ (op ∈ ops → op ∈ next.flatMap MeshTask.ops))
    (hfrom : ∀ o, o ∈ back ∨ o ∈ next.flatMap MeshTask.ops → o ∈ task.ops)
    (hto : op ∈ task.ops → op ∈ back ∨ op ∈ next.flatMap MeshTask.ops)
    (hsending : ∀ id ops remaining awaiting, MeshTask.sending id ops remaining awaiting ∈ next →
      t.messages[id]? = some ops) :
    Custody op
      { t with tasks := s.tasks.take index ++ next ++ s.tasks.drop (index + 1) } := by
  have hback : ∀ o ∈ back, s.InHand o := fun o ho => (inHand_iff hindex o).mpr
    (.inl (hfrom o (.inl ho)))
  have hhands : ∀ o, o ∈ next.flatMap MeshTask.ops ∨
      o ∈ (s.tasks.take index).flatMap MeshTask.ops ∨
      o ∈ (s.tasks.drop (index + 1)).flatMap MeshTask.ops ↔
      InHand { t with tasks := s.tasks.take index ++ next ++ s.tasks.drop (index + 1) } o := by
    intro o
    simp only [InHand, List.flatMap_append, List.mem_append]
    tauto
  have hqueue : op ∈ s.pendingOps.operations ∨ op ∈ back → op ∈ t.pendingOps.operations := by
    rw [hpending]
    refine h.wf.mem_foldl_push_newest fun o ho => ?_
    exact h.newest o (ho.elim (fun ho => .inl (.inl ho)) fun ho => .inr (hback o ho))
  have hkept : op ∈ s.pendingOps.operations ∨ s.InHand op →
      op ∈ t.pendingOps.operations ∨
        InHand { t with tasks := s.tasks.take index ++ next ++ s.tasks.drop (index + 1) } op := by
    rw [inHand_iff hindex, ← hhands]
    rintro (hop | hop | hop)
    · exact .inl (hqueue (.inl hop))
    · exact (hto hop).imp (fun hop => hqueue (.inr hop)) .inl
    · exact .inr (.inr hop)
  have hawaited : ∀ peer, s.AwaitedBy op peer → AwaitedBy
      { t with tasks := s.tasks.take index ++ next ++ s.tasks.drop (index + 1) } op peer := by
    rintro peer ⟨id, flight, hflight, hrest⟩
    exact ⟨id, flight, by rw [hinflight]; exact hflight, hrest⟩
  constructor
  · rw [hpending]
    exact h.wf.foldl_push back
  · intro o ho
    refine h.newest o ?_
    rcases ho with (ho | ⟨id, flight, hflight, ho⟩) | ho
    · rw [hpending] at ho
      exact (h.wf.mem_of_mem_foldl_push ho).elim (fun ho => .inl (.inl ho))
        fun ho => .inr (hback o ho)
    · rw [hinflight] at hflight
      exact .inl (.inr ⟨id, flight, hflight, ho⟩)
    · rw [inHand_iff hindex]
      exact .inr (((hhands o).mpr ho).imp_left fun ho => hfrom o (.inr ho))
  · intro id flight hflight
    rw [hinflight] at hflight
    exact hmessages id _ (h.inflight id flight hflight)
  · intro id ops remaining awaiting hmem
    rcases List.mem_append.mp hmem with hmem | hmem
    · rcases List.mem_append.mp hmem with hmem | hmem
      · exact hmessages id ops
          (h.sending id ops remaining awaiting (List.mem_of_mem_take hmem))
      · exact hsending id ops remaining awaiting hmem
    · exact hmessages id ops (h.sending id ops remaining awaiting (List.mem_of_mem_drop hmem))
  · intro id peer hmem
    rcases hdelivered id peer hmem with hmem | ⟨ops, hops, -⟩
    · obtain ⟨ops, hops⟩ := Option.isSome_iff_exists.mp (h.delivered id peer hmem)
      exact Option.isSome_iff_exists.mpr ⟨ops, hmessages id ops hops⟩
    · exact Option.isSome_iff_exists.mpr ⟨ops, hops⟩
  · rintro peer ⟨id, ops, hops, hop, hmem⟩
    rcases hdelivered id peer hmem with hmem | ⟨ops', hops', hhand⟩
    · rcases h.covered peer (h.sentTo_of hmessages hops hop hmem) with
        hacked | hheld | hhand | hwait
      · exact .inl (ackedBy_of hmessages (by rw [hacknowledged]; exact List.Subset.refl _) hacked)
      · exact .inr ((hkept (.inl hheld)).imp_right .inl)
      · exact .inr ((hkept (.inr hhand)).imp_right .inl)
      · exact .inr (.inr (.inr (hawaited peer hwait)))
    · -- the peer was sent the message just now, and the task still holds it
      have hsame : some ops = some ops' := hops.symm.trans hops'
      rw [Option.some.injEq] at hsame
      exact .inr (.inr (.inl ((hhands op).mp (.inl (hhand (hsame ▸ hop))))))

private theorem drain (h : Custody op s) {peers : List String}
    (hindex : s.tasks[index]? = some (.listed peers)) :
    Custody op
      { s with
        pendingOps := .empty
        tasks := s.tasks.take index ++
          (if s.pendingOps.operations.isEmpty then []
            else [.drained peers s.pendingOps.operations]) ++ s.tasks.drop (index + 1) } := by
  have hnext : (if s.pendingOps.operations.isEmpty then []
      else [MeshTask.drained peers s.pendingOps.operations]).flatMap MeshTask.ops =
        s.pendingOps.operations := by
    split
    · rename_i hempty
      exact (List.isEmpty_iff.mp hempty).symm
    · exact List.flatMap_singleton _ _
  have hhands : ∀ o, InHand { s with
      pendingOps := .empty
      tasks := s.tasks.take index ++
        (if s.pendingOps.operations.isEmpty then []
          else [.drained peers s.pendingOps.operations]) ++ s.tasks.drop (index + 1) } o ↔
      o ∈ s.pendingOps.operations ∨ s.InHand o := by
    intro o
    rw [inHand_iff hindex, InHand, List.flatMap_append, List.flatMap_append, hnext]
    simp only [List.mem_append, MeshTask.ops, List.not_mem_nil, false_or]
    tauto
  constructor
  · exact .empty
  · rintro o ((ho | ho) | ho)
    · cases ho
    · exact h.newest o (.inl (.inr ho))
    · exact h.newest o (((hhands o).mp ho).imp_left .inl)
  · exact h.inflight
  · intro id ops remaining awaiting hmem
    refine h.sending id ops remaining awaiting ?_
    rcases List.mem_append.mp hmem with hmem | hmem
    · rcases List.mem_append.mp hmem with hmem | hmem
      · exact List.mem_of_mem_take hmem
      · split at hmem
        · cases hmem
        · cases List.mem_singleton.mp hmem
    · exact List.mem_of_mem_drop hmem
  · exact h.delivered
  · intro peer hsent
    rcases h.covered peer hsent with hacked | hheld | hhand | hwait
    · exact .inl hacked
    · exact .inr (.inr (.inl ((hhands op).mpr (.inl hheld))))
    · exact .inr (.inr (.inl ((hhands op).mpr (.inr hhand))))
    · exact .inr (.inr (.inr hwait))

/-- A flush enters its message into the inflight table. -/
theorem enter (h : Custody op s) {index id : ℕ} {awaiting : BTreeMap String Bool}
    (hindex : s.tasks[index]? = some (.sending id ops [] awaiting))
    (hall : op ∈ ops → ∀ peer, s.SentTo op peer → s.AckedBy op peer ∨ peer ∈ awaiting) :
    Custody op
      { s with
        inflight := s.inflight.insert id ⟨ops, awaiting⟩
        tasks := s.tasks.take index ++ [] ++ s.tasks.drop (index + 1) } := by
  have hmessage : s.messages[id]? = some ops :=
    h.sending id ops [] awaiting ((mem_tasks hindex _).mpr (.inl rfl))
  have hhands : ∀ o, InHand { s with
      inflight := s.inflight.insert id ⟨ops, awaiting⟩
      tasks := s.tasks.take index ++ [] ++ s.tasks.drop (index + 1) } o → s.InHand o := by
    intro o ho
    rw [inHand_iff hindex]
    rw [InHand, List.append_nil, List.flatMap_append, List.mem_append] at ho
    exact .inr ho
  constructor
  · exact h.wf
  · rintro o ((ho | ⟨i, flight, hflight, ho⟩) | ho)
    · exact h.newest o (.inl (.inl ho))
    · rw [BTreeMap.get_insert] at hflight
      split at hflight
      · cases hflight
        exact h.newest o (.inr ((inHand_iff hindex o).mpr (.inl ho)))
      · exact h.newest o (.inl (.inr ⟨i, flight, hflight, ho⟩))
    · exact h.newest o (.inr (hhands o ho))
  · intro i flight hflight
    rw [BTreeMap.get_insert] at hflight
    split at hflight
    · rename_i hid
      cases hflight
      exact hid ▸ hmessage
    · exact h.inflight i flight hflight
  · intro i other remaining awaiting' hmem
    refine h.sending i other remaining awaiting' ?_
    rw [List.append_nil] at hmem
    exact (List.mem_append.mp hmem).elim List.mem_of_mem_take List.mem_of_mem_drop
  · exact h.delivered
  · intro peer hsent
    by_cases hop : op ∈ ops
    · -- the message waits for everybody who owes an acknowledgement
      refine (hall hop peer hsent).imp_right fun hpeer =>
        .inr (.inr ⟨id, ⟨ops, awaiting⟩, ?_, hop, hpeer⟩)
      rw [BTreeMap.get_insert, if_pos rfl]
    · rcases h.covered peer hsent with hacked | hheld | hhand | ⟨i, flight, hflight, hop', hpeer⟩
      · exact .inl hacked
      · exact .inr (.inl hheld)
      · refine .inr (.inr (.inl ?_))
        rw [inHand_iff hindex] at hhand
        rw [InHand, List.append_nil, List.flatMap_append, List.mem_append]
        exact hhand.resolve_left hop
      · -- an entry that is replaced does not hold the operation
        refine .inr (.inr (.inr ⟨i, flight, ?_, hop', hpeer⟩))
        have hne : id ≠ i := by
          rintro rfl
          have hsame := (h.inflight id flight hflight).symm.trans hmessage
          rw [Option.some.injEq] at hsame
          exact hop (hsame ▸ hop')
        rw [BTreeMap.get_insert, if_neg hne, hflight]

private theorem flush (h : Custody op s) (peers : List String) :
    Custody op { s with tasks := s.tasks ++ [.listed peers] } := by
  have hhands : ∀ o, InHand { s with tasks := s.tasks ++ [.listed peers] } o ↔ s.InHand o := by
    intro o
    rw [InHand, List.flatMap_append, List.flatMap_singleton, MeshTask.ops, List.append_nil]
    rfl
  constructor
  · exact h.wf
  · exact fun o ho => h.newest o (ho.imp_right (hhands o).mp)
  · exact h.inflight
  · intro id ops remaining awaiting hmem
    refine h.sending id ops remaining awaiting
      ((List.mem_append.mp hmem).resolve_right fun hmem => ?_)
    cases List.mem_singleton.mp hmem
  · exact h.delivered
  · exact fun peer hsent =>
      (h.covered peer hsent).imp_right (.imp_right (.imp_left (hhands op).mpr))

/-- Local writes put nothing newer of the slot into the queue. -/
theorem write (h : Custody op s) (hnewer : ∀ other ∈ ops, NotNewer op other) :
    Custody op (s.requeue ops) where
  wf := h.wf.foldl_push ops
  newest o ho := by
    rcases ho with (ho | ho) | ho
    · exact (h.wf.mem_of_mem_foldl_push ho).elim (fun ho => h.newest o (.inl (.inl ho)))
        (hnewer o)
    · exact h.newest o (.inl (.inr ho))
    · exact h.newest o (.inr ho)
  inflight := h.inflight
  sending := h.sending
  delivered := h.delivered
  covered peer hsent := by
    refine (h.covered peer hsent).imp_right fun hcover => hcover.imp_left fun hop => ?_
    refine h.wf.mem_foldl_push_newest (fun o ho => ?_) (.inl hop)
    exact ho.elim (fun ho => h.newest o (.inl (.inl ho))) (hnewer o)

private theorem acknowledge (h : Custody op s) (id : ℕ) (peer : String) :
    Custody op
      { s with
        inflight := acknowledgeFlight s.inflight id peer
        acknowledged := s.acknowledged ++ [(id, peer)] } where
  wf := h.wf
  newest o ho := by
    rcases ho with (ho | ⟨i, after, hafter, ho⟩) | ho
    · exact h.newest o (.inl (.inl ho))
    · obtain ⟨flight, hflight, heq⟩ := acknowledgeFlight_sub hafter
      exact h.newest o (.inl (.inr ⟨i, flight, hflight, heq ▸ ho⟩))
    · exact h.newest o (.inr ho)
  inflight i after hafter := by
    obtain ⟨flight, hflight, heq⟩ := acknowledgeFlight_sub hafter
    rw [heq]
    exact h.inflight i flight hflight
  sending := h.sending
  delivered := h.delivered
  covered other hsent := by
    rcases h.covered other hsent with hacked | hheld | hhand | ⟨i, flight, hflight, hop, hpeer⟩
    · obtain ⟨id', ops, hops, hop, hmem⟩ := hacked
      exact .inl ⟨id', ops, hops, hop, List.mem_append_left _ hmem⟩
    · exact .inr (.inl hheld)
    · exact .inr (.inr (.inl hhand))
    · by_cases hme : i = id ∧ other = peer
      · -- the peer acknowledged the operation with this message
        obtain ⟨rfl, rfl⟩ := hme
        exact .inl ⟨i, flight.message, h.inflight i flight hflight, hop, by simp⟩
      · obtain ⟨after, hafter, heq, hwaits⟩ := acknowledgeFlight_keeps hflight hpeer
          fun (hi : i = id) (hother : other = peer) => hme ⟨hi, hother⟩
        exact .inr (.inr (.inr ⟨i, after, hafter, heq ▸ hop, hwaits⟩))

private theorem remove (h : Custody op s) {openPeers : BTreeSet String}
    (halone : ∀ (id : ℕ) (flight : Flight (List Operation)), s.inflight[id]? = some flight →
      op ∈ flight.message → peer ∈ flight.awaiting →
        (flight.awaiting.erase peer).isEmpty = true) :
    Custody op
      { s with
        openPeers := openPeers
        inflight := (removePeerFromFlights s.inflight peer).1
        tasks := s.tasks ++ [.requeueing (removePeerFromFlights s.inflight peer).2] } := by
  have hsub : ∀ (i : ℕ) after, (removePeerFromFlights s.inflight peer).1[i]? = some after →
      ∃ flight : Flight (List Operation),
        s.inflight[i]? = some flight ∧ after.message = flight.message := by
    intro i after hafter
    rw [removePeerFromFlights_get, Option.filter_eq_some_iff, Option.map_eq_some_iff] at hafter
    obtain ⟨⟨flight, hflight, rfl⟩, -⟩ := hafter
    exact ⟨flight, hflight, rfl⟩
  have hhands : ∀ o, InHand { s with
      openPeers := openPeers
      inflight := (removePeerFromFlights s.inflight peer).1
      tasks := s.tasks ++ [.requeueing (removePeerFromFlights s.inflight peer).2] } o ↔
      s.InHand o ∨ o ∈ (removePeerFromFlights s.inflight peer).2.flatten := by
    intro o
    rw [InHand, List.flatMap_append, List.flatMap_singleton, List.mem_append]
    rfl
  constructor
  · exact h.wf
  · rintro o ((ho | ⟨i, after, hafter, ho⟩) | ho)
    · exact h.newest o (.inl (.inl ho))
    · obtain ⟨flight, hflight, heq⟩ := hsub i after hafter
      exact h.newest o (.inl (.inr ⟨i, flight, hflight, heq ▸ ho⟩))
    · rcases (hhands o).mp ho with ho | ho
      · exact h.newest o (.inr ho)
      · obtain ⟨message, hmessage, ho⟩ := List.mem_flatten.mp ho
        obtain ⟨i, flight, hflight, rfl, -⟩ := mem_removePeerFromFlights.mp hmessage
        exact h.newest o (.inl (.inr ⟨i, flight, hflight, ho⟩))
  · intro i after hafter
    obtain ⟨flight, hflight, heq⟩ := hsub i after hafter
    rw [heq]
    exact h.inflight i flight hflight
  · intro id ops remaining awaiting hmem
    refine h.sending id ops remaining awaiting
      ((List.mem_append.mp hmem).resolve_right fun hmem => ?_)
    cases List.mem_singleton.mp hmem
  · exact h.delivered
  · intro other hsent
    rcases h.covered other hsent with hacked | hheld | hhand | ⟨i, flight, hflight, hop, hpeer⟩
    · exact .inl hacked
    · exact .inr (.inl hheld)
    · exact .inr (.inr (.inl ((hhands op).mpr (.inl hhand))))
    · cases hempty : (flight.awaiting.erase peer).isEmpty with
      | true =>
        -- the message waits for nobody else and is put back
        refine .inr (.inr (.inl ((hhands op).mpr (.inr ?_))))
        exact List.mem_flatten.mpr
          ⟨flight.message, mem_removePeerFromFlights.mpr ⟨i, flight, hflight, rfl, hempty⟩, hop⟩
      | false =>
        have hne : other ≠ peer := by
          rintro rfl
          rw [halone i flight hflight hop hpeer] at hempty
          cases hempty
        refine .inr (.inr (.inr ⟨i, { flight with awaiting := flight.awaiting.erase peer },
          ?_, hop, ?_⟩))
        · rw [removePeerFromFlights_get, hflight]
          exact Option.filter_eq_some_iff.mpr ⟨rfl, by rw [hempty]; rfl⟩
        · rw [Std.ExtTreeMap.mem_erase]
          exact ⟨by simpa using Ne.symm hne, hpeer⟩

private theorem advance (h : Custody op s) {success : Bool} (hindex : s.tasks[index]? = some task)
    (hbenign : Benign op s (.task index success)) :
    Custody op
      { (s.advance success task).2 with
        tasks := s.tasks.take index ++ (s.advance success task).1 ++
          s.tasks.drop (index + 1) } := by
  simp only [Benign, hindex] at hbenign
  have hdelivered : ∀ (next : List MeshTask) id peer, (id, peer) ∈ s.delivered →
      (id, peer) ∈ s.delivered ∨
        ∃ ops, s.messages[id]? = some ops ∧ (op ∈ ops → op ∈ next.flatMap MeshTask.ops) :=
    fun _ _ _ hmem => .inl hmem
  cases task with
  | listed peers => exact h.drain hindex
  | drained peers ops =>
    cases success with
    | true =>
      exact h.passOn hindex [.draining peers ops] [] rfl rfl rfl (fun _ _ h => h)
        (hdelivered _) (by simp [MeshTask.ops]) (by simp [MeshTask.ops]) (by simp)
    | false =>
      exact h.passOn hindex [] [] rfl rfl rfl (fun _ _ h => h) (hdelivered _)
        (by simp) (fun hop => by cases hbenign hop) (by simp)
  | draining peers ops =>
    rw [MeshSync.advance]
    dsimp only
    split
    · refine h.passOn hindex [.ready peers _] (ops.drop (max s.maxOpsPerMessage 1)) rfl rfl rfl
        (fun _ _ h => h) (hdelivered _) (fun o ho => ?_) (fun hop => ?_) (by simp)
      · rw [List.flatMap_singleton] at ho
        exact ho.elim List.mem_of_mem_drop List.mem_of_mem_take
      · rw [MeshTask.ops, ← List.take_append_drop (max s.maxOpsPerMessage 1) ops,
          List.mem_append] at hop
        rw [List.flatMap_singleton]
        exact hop.symm
    · exact h.passOn hindex [.ready peers ops] [] rfl rfl rfl (fun _ _ h => h)
        (hdelivered _) (by simp [MeshTask.ops]) (by simp [MeshTask.ops]) (by simp)
  | ready peers ops =>
    obtain ⟨hnew, hop⟩ := hbenign
    cases success with
    | true =>
      have hmessages : ∀ (id : ℕ) (known : List Operation), s.messages[id]? = some known →
          (s.messages.insert (nextSeq s.nextMessageSeq) ops)[id]? = some known := by
        intro id known hknown
        rw [BTreeMap.get_insert, if_neg, hknown]
        rintro rfl
        rw [hnew] at hknown
        cases hknown
      refine h.passOn hindex [.sending (nextSeq s.nextMessageSeq) ops peers ∅] [] rfl rfl rfl
        hmessages (fun _ _ hmem => .inl hmem) (by simp [MeshTask.ops]) (by simp [MeshTask.ops])
        (fun id ops' remaining awaiting hmem => ?_)
      cases List.mem_singleton.mp hmem
      change (s.messages.insert (nextSeq s.nextMessageSeq) ops)[nextSeq s.nextMessageSeq]? = _
      rw [BTreeMap.get_insert, if_pos rfl]
    | false =>
      exact h.passOn hindex [] [] rfl rfl rfl (fun _ _ h => h) (hdelivered _)
        (by simp) (fun hin => by cases hop hin) (by simp)
  | sending id ops remaining awaiting =>
    have hmessage : s.messages[id]? = some ops :=
      h.sending id ops remaining awaiting ((mem_tasks hindex _).mpr (.inl rfl))
    have hsame : ∀ (rest : List String) (waiting : BTreeMap String Bool) id' ops' rest' waiting',
        MeshTask.sending id' ops' rest' waiting' ∈ [MeshTask.sending id ops rest waiting] →
          s.messages[id']? = some ops' := by
      intro rest waiting id' ops' rest' waiting' hmem
      cases List.mem_singleton.mp hmem
      exact hmessage
    cases remaining with
    | nil =>
      rw [MeshSync.advance]
      split
      · exact h.passOn hindex [] ops rfl rfl rfl (fun _ _ h => h) (hdelivered _)
          (by simp [MeshTask.ops]) (by simp [MeshTask.ops]) (by simp)
      · rename_i hwaits
        exact h.enter hindex fun hop => hbenign hop (by simpa using hwaits)
    | cons peer remaining =>
      rw [MeshSync.advance]
      split
      · refine h.passOn hindex [.sending id ops remaining _] [] rfl rfl rfl (fun _ _ h => h)
          (fun id' peer' hmem => ?_) (by simp [MeshTask.ops]) (by simp [MeshTask.ops])
          (hsame _ _)
        rcases List.mem_append.mp hmem with hmem | hmem
        · exact .inl hmem
        · cases List.mem_singleton.mp hmem
          exact .inr ⟨ops, hmessage, fun hop => by simpa [MeshTask.ops] using hop⟩
      · exact h.passOn hindex [.sending id ops remaining awaiting] [] rfl rfl rfl
          (fun _ _ h => h) (hdelivered _) (by simp [MeshTask.ops]) (by simp [MeshTask.ops])
          (hsame _ _)
  | requeueing messages =>
    cases messages with
    | nil =>
      exact h.passOn hindex [] [] rfl rfl rfl (fun _ _ h => h) (hdelivered _)
        (by simp) (by simp [MeshTask.ops]) (by simp)
    | cons ops messages =>
      cases success with
      | true =>
        exact h.passOn hindex [.requeueing messages] ops rfl rfl rfl (fun _ _ h => h)
          (hdelivered _) (by simp [MeshTask.ops]) (by simp [MeshTask.ops]) (by simp)
      | false =>
        refine h.passOn hindex [.requeueing messages] [] rfl rfl rfl (fun _ _ h => h)
          (hdelivered _) (fun o ho => ?_) (fun hop => ?_) (by simp)
        · rcases ho with ho | ho
          · cases ho
          · rw [List.flatMap_singleton] at ho
            exact List.mem_append_right _ ho
        · rw [MeshTask.ops, List.flatten_cons, List.mem_append] at hop
          refine hop.elim (fun hop => ?_) fun hop => .inr ?_
          · cases hbenign hop
          · rw [List.flatMap_singleton]
            exact hop

private theorem step (h : Custody op s) {event : MeshEvent} (hbenign : Benign op s event) :
    Custody op (s.step event) := by
  cases event with
  | write ops => exact h.write hbenign
  | opened peer => exact { h with }
  | flush =>
    rw [MeshSync.step]
    split
    · exact h
    · exact h.flush _
  | task index success =>
    rw [MeshSync.step]
    split
    · exact h
    · rename_i task hindex
      exact h.advance hindex hbenign
  | acknowledged id peer => exact h.acknowledge id peer
  | removed peer => exact h.remove hbenign

end Custody

/-- In every run from a fresh client whose events are all benign for an operation, the operation is
in the pending queue, in the inflight table or in the hands of a running task as long as some peer
it was sent to has not acknowledged it. -/
theorem sent_kept {start : MeshSync} (hstart : start.Fresh)
    (hnewest : ∀ other ∈ start.pendingOps.operations, NotNewer op other)
    (events : List MeshEvent) (halong : Run.Along MeshSync.step (Benign op) start events)
    (peer : String) (hsent : (events.foldl MeshSync.step start).SentTo op peer)
    (howed : ¬(events.foldl MeshSync.step start).AckedBy op peer) :
    (events.foldl MeshSync.step start).Queued op ∨
      (events.foldl MeshSync.step start).InHand op := by
  have hcustody : Custody op (events.foldl MeshSync.step start) :=
    Run.Along.invariant (fun h hevent => h.step hevent) (Custody.start hstart hnewest) halong
  rcases hcustody.covered peer hsent with hacked | hpending | hhand | ⟨id, flight, hflight, hop, -⟩
  · exact absurd hacked howed
  · exact .inl (.inl hpending)
  · exact .inr hhand
  · exact .inl (.inr ⟨id, flight, hflight, hop⟩)

/-- An operation of a client. -/
def meshOp : Operation := ⟨"o", "r", ⟨1, 0, "r"⟩, .setField "n" "f" (.scalar (.bool true))⟩

/-- A client with one operation to send and channels to two peers. -/
def queuedMesh : MeshSync where
  pendingOps := .fromOperations [meshOp]
  maxOpsPerMessage := 256
  openPeers := .ofList ["a", "b"]
  nextMessageSeq := 0
  inflight := ∅
  tasks := []
  messages := ∅
  delivered := []
  acknowledged := []

/-- A flush to both peers. -/
def flushToBoth : List MeshEvent := .flush :: List.replicate 7 (.task 0 true)

/-- One of the peers leaves and the other acknowledges. -/
def leftRun : List MeshEvent := flushToBoth ++ [.removed "a", .acknowledged 1 "b"]

/-- One of the peers acknowledges. -/
def halfAcknowledged : List MeshEvent := flushToBoth ++ [.acknowledged 1 "b"]

private theorem queuedMesh_fresh : queuedMesh.Fresh := ⟨.fromOperations _, rfl, rfl, rfl⟩

/-- One of two peers leaves, the other acknowledges, and nothing holds the operation that the
first never acknowledged. -/
theorem operation_lost :
    let s := leftRun.foldl MeshSync.step queuedMesh
    s.SentTo meshOp "a" ∧ ¬s.AckedBy meshOp "a" ∧ ¬s.Queued meshOp ∧ ¬s.InHand meshOp := by
  intro s
  have hdelivered : s.delivered = [(1, "a"), (1, "b")] := by decide +kernel
  have hacknowledged : s.acknowledged = [(1, "b")] := by decide +kernel
  have hinflight : s.inflight = ∅ := by decide +kernel
  have hpending : s.pendingOps.operations = [] := by decide +kernel
  refine ⟨⟨1, [meshOp], by decide +kernel, List.mem_singleton_self _, ?_⟩, ?_, ?_, ?_⟩
  · rw [hdelivered]
    exact List.mem_cons_self
  · rintro ⟨id, ops, -, -, hmem⟩
    rw [hacknowledged] at hmem
    exact absurd hmem (by simp)
  · rintro (hop | ⟨id, flight, hflight, -⟩)
    · rw [hpending] at hop
      cases hop
    · rw [hinflight] at hflight
      cases hflight
  · have hhands : s.tasks.flatMap MeshTask.ops = [] := by decide +kernel
    rw [InHand, hhands]
    exact List.not_mem_nil

/-- A flush to two peers is benign, and so is the acknowledgement of one. -/
theorem halfAcknowledged_benign :
    Run.Along MeshSync.step (Benign meshOp) queuedMesh halfAcknowledged := by
  refine ⟨trivial, trivial, fun _ => rfl, trivial, ⟨?_, fun _ => rfl⟩, trivial, trivial, ?_,
    trivial, trivial⟩
  · decide +kernel
  · -- the message is entered with both peers
    rintro - - peer ⟨id, ops, -, -, hmem⟩
    have hpeer : (id, peer) = (1, "a") ∨ (id, peer) = (1, "b") := by
      simpa using (show (id, peer) ∈ [((1 : ℕ), "a"), (1, "b")] from hmem)
    refine .inr ?_
    rcases hpeer with hpeer | hpeer <;> cases hpeer <;> decide +kernel

/-- After the acknowledgement of one peer the operation is kept for the other. -/
theorem sent_kept_halfAcknowledged :
    let s := halfAcknowledged.foldl MeshSync.step queuedMesh
    s.Queued meshOp ∨ s.InHand meshOp := by
  refine sent_kept queuedMesh_fresh ?_ _ halfAcknowledged_benign "a" ?_ ?_
  · intro other hother _
    exact .inl (List.mem_singleton.mp hother)
  · exact ⟨1, [meshOp], by decide +kernel, List.mem_singleton_self _, by decide +kernel⟩
  · rintro ⟨id, ops, -, -, hmem⟩
    have hlast : (id, "a") ∈ [((1 : ℕ), "b")] := hmem
    exact absurd hlast (by simp)

end MeshSync

end Primadb
