import Primadb.Db.Ledger
import Primadb.Db.Footprint
import Primadb.Graph.SlotQueue

/-!
# What a transaction announces

A transaction announces what lies behind the old end of the unflushed queue. The
queue compacts in place, so an operation on a slot that was queued before replaces
the older entry there and is left out of the event. Everything is announced exactly
when no slot was queued before and no record loses its key on the way.
-/

namespace Primadb

open OperationCompactionKey

/-- The record key in a slot. -/
def Slot.recordKey (slot : Slot) : Option String :=
  match slot.field with
  | some ⟨.scalar (.string key), _⟩ => some key
  | _ => none

/-- The record key of a node. -/
def recordKeyAt (nodes : BTreeMap NodeId NodeState) (node : NodeId) : Option String :=
  nodes[node]?.bind recordKeyFromNodeState

/-- The key of a record is in its `key` slot. -/
theorem recordKeyAt_eq (nodes : BTreeMap NodeId NodeState) (node : NodeId) :
    recordKeyAt nodes node = (slotAt nodes node "key").recordKey := by
  rw [recordKeyAt, slotAt]
  cases nodes[node]? with
  | none => rfl
  | some state => rfl

/-- The record key an action on a `key` slot leaves there. -/
def OperationAction.assignedKey : OperationAction → Option String
  | .setField _ _ (.scalar (.string key)) => some key
  | _ => none

/-- An accepted operation sets the key it assigns. -/
theorem Slot.recordKey_apply {slot : Slot} {op : Operation}
    (h : slot.accepts op.slotOp = true) :
    (slot.apply op.slotOp).recordKey = op.action.assignedKey := by
  have hmember : ∀ present id, op.slotOp = ⟨op.marker, .member present id⟩ →
      (slot.apply op.slotOp).recordKey = none := by
    intro present id heq
    rw [heq] at h ⊢
    obtain ⟨⟨set, v, hset⟩, -⟩ := isSet_has_of_accepts h
    rw [recordKey, hset]
  cases ha : op.action with
  | setField node field value =>
    have heq : op.slotOp = ⟨op.marker, .assign value⟩ := by
      rw [Operation.slotOp, ha, OperationAction.slotAction]
    rw [heq] at h ⊢
    rw [(apply_reset_of_accepts (by intro; simp) h).2]
    cases value with
    | scalar json => cases json <;> rfl
    | _ => rfl
  | deleteField node field =>
    have heq : op.slotOp = ⟨op.marker, .delete⟩ := by
      rw [Operation.slotOp, ha, OperationAction.slotAction]
    rw [heq] at h ⊢
    rw [(apply_reset_of_accepts (by intro; simp) h).2]
    rfl
  | addSetMember node field id =>
    exact hmember true id (by rw [Operation.slotOp, ha, OperationAction.slotAction])
  | removeSetMember node field id =>
    exact hmember false id (by rw [Operation.slotOp, ha, OperationAction.slotAction])

/-- The record key of a node where the first operation on it was let in. -/
def keyBefore (log : List Issued) (node : NodeId) : Option String :=
  (log.find? fun entry => entry.accepted && entry.op.action.node == node).bind fun entry =>
    recordKeyAt entry.before.nodes node

/-- The record key that the operations let in leave at a node. -/
def keyAfter (log : List Issued) (node : NodeId) : Option String :=
  match ((acceptedOps log).filter (Operation.at node "key")).getLast? with
  | some op => op.action.assignedKey
  | none => keyBefore log node

/-- The record nodes of the operations let in. -/
def touchedRecords (log : List Issued) : List NodeId :=
  ((acceptedOps log).filter operationIsRecordOp).map (·.action.node)

/-- A node is touched exactly when the log has a first operation on it. -/
theorem find?_isSome_iff (log : List Issued) (node : NodeId) :
    (log.find? fun entry => entry.accepted && entry.op.action.node == node).isSome = true ↔
      ∃ op ∈ acceptedOps log, op.action.node = node := by
  rw [List.find?_isSome]
  constructor
  · rintro ⟨entry, hmem, h⟩
    obtain ⟨hacc, hnode⟩ := Bool.and_eq_true_iff.mp h
    exact ⟨entry.op, List.mem_map_of_mem (List.mem_filter.mpr ⟨hmem, hacc⟩), by simpa using hnode⟩
  · rintro ⟨op, hop, rfl⟩
    obtain ⟨entry, hmem, hacc, rfl⟩ := exists_of_mem_acceptedOps hop
    exact ⟨entry, hmem, by simp [hacc]⟩

private theorem Ledger.recordKeyAt_apply (ledger : Ledger) (op : Operation) (node : NodeId) :
    recordKeyAt (ledger.apply op).nodes node =
      if ledger.takes op && op.at node "key" then op.action.assignedKey
      else recordKeyAt ledger.nodes node := by
  rw [recordKeyAt_eq, recordKeyAt_eq, apply_slot]
  split
  · rename_i h
    obtain ⟨htakes, hat⟩ := Bool.and_eq_true_iff.mp h
    obtain ⟨rfl, hfield⟩ : op.action.node = node ∧ op.action.field = "key" := by
      simpa [Operation.at] using hat
    rw [takes, Bool.and_eq_true, slotOf, hfield] at htakes
    exact Slot.recordKey_apply htakes.2
  · rfl

/-- The key a node is left with, when one more operation is let in or refused. -/
theorem keyAfter_append (log : List Issued) (entry : Issued) (node : NodeId) :
    keyAfter (log ++ [entry]) node =
      if entry.accepted && entry.op.at node "key" then entry.op.action.assignedKey
      else if (∃ op ∈ acceptedOps log, op.action.node = node) then keyAfter log node
      else keyBefore [entry] node := by
  have hfind : keyBefore (log ++ [entry]) node =
      if (∃ op ∈ acceptedOps log, op.action.node = node) then keyBefore log node
      else keyBefore [entry] node := by
    simp only [keyBefore, List.find?_append, ← find?_isSome_iff]
    cases log.find? fun entry => entry.accepted && entry.op.action.node == node <;> rfl
  simp only [keyAfter, acceptedOps_append, acceptedOps_singleton, List.filter_append, hfind]
  by_cases h : (entry.accepted && entry.op.at node "key") = true
  · obtain ⟨hacc, hat⟩ := Bool.and_eq_true_iff.mp h
    simp [hacc, hat]
  · have hnil : List.filter (Operation.at node "key")
        (if entry.accepted = true then [entry.op] else []) = [] := by
      cases hacc : entry.accepted <;> simp_all
    rw [hnil, List.append_nil, if_neg h]
    split
    · rename_i op hlast
      obtain ⟨hmem, hat⟩ := List.mem_filter.mp (List.mem_of_getLast? hlast)
      have hnode : op.action.node = node := by
        simp only [Operation.at, Bool.and_eq_true, beq_iff_eq] at hat
        exact hat.1
      rw [if_pos ⟨op, hmem, hnode⟩]
    · rfl

/-- After a run, a touched node has the key its operations left. -/
theorem Ledger.Steps.recordKeyAt_eq {start ledger : Ledger} {log : List Issued}
    (h : Ledger.Steps start log ledger) {node : NodeId}
    (htouched : ∃ op ∈ acceptedOps log, op.action.node = node) :
    recordKeyAt ledger.nodes node = keyAfter log node := by
  induction h with
  | refl => simp at htouched
  | @tail log entries ledger ledger' hsteps hstep ih =>
    by_cases hlog : ∃ op ∈ acceptedOps log, op.action.node = node
    · -- the node was touched before, so this step changes it by its operation only
      have hold := ih hlog
      have hslot : slotAt ledger'.nodes node "key" =
          entries.foldl (Issued.onSlot node "key") (slotAt ledger.nodes node "key") := by
        obtain ⟨op, hop, rfl⟩ := hlog
        exact (hstep.held (hsteps.held hop)).2 "key"
      cases hstep with
      | issue op clock hle hrev =>
        rw [keyAfter_append, if_pos hlog, recordKeyAt_apply, ← hold]
        rfl
      | _ =>
        rw [List.append_nil, ← hold, Primadb.recordKeyAt_eq, hslot, List.foldl_nil,
          ← Primadb.recordKeyAt_eq]
    · -- this step touches it first
      cases hstep with
      | issue op clock hle hrev =>
        have hfirst : Issued.accepted ⟨ledger, op⟩ = true ∧ op.action.node = node := by
          obtain ⟨o, ho, hnode⟩ := htouched
          rw [acceptedOps_append, List.mem_append] at ho
          have ho := ho.resolve_left fun ho => hlog ⟨o, ho, hnode⟩
          obtain ⟨entry, hmem, hacc, rfl⟩ := exists_of_mem_acceptedOps ho
          rw [List.mem_singleton.mp hmem] at hacc hnode
          exact ⟨hacc, hnode⟩
        have hbefore : keyBefore [⟨ledger, op⟩] node = recordKeyAt ledger.nodes node := by
          simp [keyBefore, hfirst.1, hfirst.2]
        rw [keyAfter_append, if_neg hlog, recordKeyAt_apply, hbefore]
        rfl
      | _ => exact absurd (by simpa using htouched) hlog

namespace ChangeImpact

/-- The event asks readers of records to read everything again. -/
def broad (impact : ChangeImpact) : Bool :=
  impact.fullRefresh || impact.recordsChanged && impact.touchedRecordKeys.isEmpty

variable {nodes : BTreeMap NodeId NodeState} {ops : List Operation}

/-- The paths a batch touches. -/
theorem mem_touchedPaths {path : String} :
    path ∈ (fromOps ops nodes).touchedPaths ↔ ∃ op ∈ ops, operationTouchedPath op = path := by
  simp only [fromOps, Std.ExtTreeSet.mem_toList, BTreeSet.mem_foldl_insert]
  simp

/-- The record keys a batch touches. -/
theorem mem_touchedRecordKeys {key : String} :
    key ∈ (fromOps ops nodes).touchedRecordKeys ↔
      (∀ op ∈ ops, operationIsRecordOp op = true → operationTouchedRecordKey op nodes ≠ none) ∧
        ∃ op ∈ ops, operationIsRecordOp op = true ∧
          operationTouchedRecordKey op nodes = some key := by
  have hknown : (((ops.filter operationIsRecordOp).map (operationTouchedRecordKey · nodes)).all
      Option.isSome) = true ↔
      ∀ op ∈ ops, operationIsRecordOp op = true → operationTouchedRecordKey op nodes ≠ none := by
    simp only [List.all_eq_true, List.mem_map, List.mem_filter, forall_exists_index, and_imp,
      Option.isSome_iff_ne_none]
    exact ⟨fun h op hop hrec => h _ op hop hrec rfl, fun h _ op hop hrec heq => heq ▸ h op hop hrec⟩
  simp only [fromOps]
  split
  · rename_i hall
    have hsome := hknown.mp hall
    simp only [Std.ExtTreeSet.mem_toList, BTreeSet.mem_foldl_insert, List.mem_map, List.mem_filter]
    constructor
    · rintro (h | ⟨found, ⟨op, ⟨hop, hrec⟩, rfl⟩, rfl⟩)
      · simp at h
      · refine ⟨hsome, op, hop, hrec, ?_⟩
        obtain ⟨found, hfound⟩ := Option.ne_none_iff_exists'.mp (hsome op hop hrec)
        rw [hfound, Option.getD_some]
    · rintro ⟨-, op, hop, hrec, hkey⟩
      exact Or.inr ⟨_, ⟨op, ⟨hop, hrec⟩, rfl⟩, by rw [hkey, Option.getD_some]⟩
  · rename_i hall
    simp only [List.not_mem_nil, false_iff, not_and]
    exact fun hsome => absurd (hknown.mpr hsome) hall

/-- The event is broad exactly when the key of a record operation is unknown. -/
theorem broad_fromOps :
    (fromOps ops nodes).broad = true ↔
      ∃ op ∈ ops, operationIsRecordOp op = true ∧ operationTouchedRecordKey op nodes = none := by
  have hbroad : (fromOps ops nodes).broad = true ↔ (∃ op ∈ ops, operationIsRecordOp op = true) ∧
      (fromOps ops nodes).touchedRecordKeys = [] := by
    simp [broad, fromOps]
  rw [hbroad]
  constructor
  · rintro ⟨⟨op, hop, hrec⟩, hnil⟩
    by_contra hnone
    push Not at hnone
    obtain ⟨key, hkey⟩ := Option.ne_none_iff_exists'.mp (hnone op hop hrec)
    have hmem := mem_touchedRecordKeys.mpr ⟨hnone, op, hop, hrec, hkey⟩
    rw [hnil] at hmem
    cases hmem
  · rintro ⟨op, hop, hrec, hkey⟩
    refine ⟨⟨op, hop, hrec⟩, List.eq_nil_iff_forall_not_mem.mpr fun key hmem => ?_⟩
    exact (mem_touchedRecordKeys.mp hmem).1 op hop hrec hkey

end ChangeImpact

/-- The key announced for a record operation: the one it writes, or the one of its node. -/
theorem operationTouchedRecordKey_eq {op : Operation} (hrec : operationIsRecordOp op = true)
    (nodes : BTreeMap NodeId NodeState) :
    operationTouchedRecordKey op nodes =
      (if op.action.field = "key" then op.action.assignedKey else none).or
        (recordKeyAt nodes op.action.node) := by
  rw [operationIsRecordOp] at hrec
  rw [operationTouchedRecordKey, recordKeyAt]
  split
  · rename_i node field key ha
    rw [ha] at hrec ⊢
    have hnode : isRecordNodeId node = true := hrec
    by_cases hf : field = "key" <;>
      simp [hnode, hf, OperationAction.field, OperationAction.node, OperationAction.assignedKey]
  · rename_i hne
    have hkey : op.action.assignedKey = none := by
      cases ha : op.action with
      | setField node field value =>
        cases value with
        | scalar json =>
          cases json with
          | string key => exact absurd ha (hne node field key)
          | _ => rfl
        | _ => rfl
      | _ => rfl
    simp [hrec, hkey]

/-- What a complete announcement of a transaction says: persistence is attempted, the path of
every changed slot is listed, so is every key a changed record had or has unless all records are
to be read again, and the count is that of the changed slots. -/
structure ChangeImpact.Announces (impact : ChangeImpact) (count : ℕ) (log : List Issued)
    (nodes : BTreeMap NodeId NodeState) : Prop where
  attempted : impact.isEmpty = false
  paths : ∀ op ∈ acceptedOps log, operationTouchedPath op ∈ impact.touchedPaths
  records : ∀ node ∈ touchedRecords log, ∀ key,
    keyBefore log node = some key ∨ recordKeyAt nodes node = some key →
      key ∈ impact.touchedRecordKeys ∨ impact.broad = true
  counted : count = ((acceptedOps log).map fromOperation).dedup.length

/-- No slot of the operations let in was queued. -/
def Unqueued (queue : CompactedOperations) (log : List Issued) : Prop :=
  ∀ op ∈ acceptedOps log, fromOperation op ∉ queue.operations.map fromOperation

/-- No record key is given up: some changed record is left without a key, so that all records
are read again, or each key a changed record had is the key of a changed record. -/
def KeysKept (log : List Issued) : Prop :=
  (∃ node ∈ touchedRecords log, keyAfter log node = none) ∨
    ∀ node ∈ touchedRecords log, ∀ key ∈ keyBefore log node,
      ∃ other ∈ touchedRecords log, keyAfter log other = some key

instance (queue : CompactedOperations) (log : List Issued) : Decidable (Unqueued queue log) :=
  inferInstanceAs (Decidable (∀ op ∈ acceptedOps log,
    fromOperation op ∉ queue.operations.map fromOperation))

instance (log : List Issued) : Decidable (KeysKept log) :=
  inferInstanceAs (Decidable (_ ∨ _))

section Suffix

variable {start queue : CompactedOperations} {log : List Issued}
  {nodes : BTreeMap NodeId NodeState}

/-- The announced operations are as many as the changed slots exactly when none was queued. -/
theorem counted_iff (h : start.Grown queue (acceptedOps log)) :
    (queue.operations.drop start.len).length =
        ((acceptedOps log).map fromOperation).dedup.length ↔ Unqueued start log := by
  have hsub : (queue.operations.drop start.len).map fromOperation ⊆
      ((acceptedOps log).map fromOperation).dedup := by
    intro key hkey
    exact List.mem_dedup.mpr ((h.mem_back key).mp hkey).1
  rw [← List.length_map (f := fromOperation)]
  constructor
  · intro hlen op hop
    have hperm := (h.back_nodup.subperm hsub).perm_of_length_le hlen.ge
    have hmem := hperm.mem_iff.mpr (List.mem_dedup.mpr (List.mem_map_of_mem hop))
    exact ((h.mem_back _).mp hmem).2
  · intro hun
    refine ((List.perm_ext_iff_of_nodup h.back_nodup (List.nodup_dedup _)).mpr fun key =>
      ?_).length_eq
    rw [h.mem_back, List.mem_dedup]
    refine and_iff_left_of_imp fun hkey => ?_
    obtain ⟨op, hop, rfl⟩ := List.mem_map.mp hkey
    exact hun op hop

variable {op : Operation}

/-- Without queued slots, every operation let in is announced by one of its key. -/
theorem exists_announced (h : start.Grown queue (acceptedOps log)) (hun : Unqueued start log)
    (hop : op ∈ acceptedOps log) :
    ∃ o ∈ queue.operations.drop start.len, fromOperation o = fromOperation op :=
  List.mem_map.mp ((h.mem_back _).mpr ⟨List.mem_map_of_mem hop, hun op hop⟩)

private theorem mem_acceptedOps_of_announced (h : start.Grown queue (acceptedOps log))
    (hop : op ∈ queue.operations.drop start.len) : op ∈ acceptedOps log :=
  List.mem_of_mem_filter (List.mem_of_getLast? (h.newest op hop))

/-- The last entry under a weaker condition is the last one under a stronger one it meets. -/
private theorem getLast?_filter_of_imp {α : Type} {p q : α → Bool} {l : List α} {a : α}
    (h : (l.filter p).getLast? = some a) (hq : q a = true) (himp : ∀ b, q b = true → p b = true) :
    (l.filter q).getLast? = some a := by
  obtain ⟨front, hfront⟩ := List.getLast?_eq_some_iff.mp h
  have hqp : l.filter q = (l.filter p).filter q := by
    rw [List.filter_filter]
    refine List.filter_congr fun b _ => ?_
    cases hb : q b with
    | false => rfl
    | true => simp [himp b hb]
  rw [hqp, hfront, List.filter_append]
  simp [hq]

/-- When no announced record operation has an unknown key, each is announced under the key its
node has in the end. -/
theorem touchedRecordKey_eq (h : start.Grown queue (acceptedOps log)) (hun : Unqueued start log)
    (hkeys : ∀ op ∈ acceptedOps log, recordKeyAt nodes op.action.node = keyAfter log op.action.node)
    (hknown : ∀ op ∈ queue.operations.drop start.len, operationIsRecordOp op = true →
      operationTouchedRecordKey op nodes ≠ none) (hop : op ∈ queue.operations.drop start.len)
    (hrec : operationIsRecordOp op = true) :
    operationTouchedRecordKey op nodes = recordKeyAt nodes op.action.node := by
  have hacc := mem_acceptedOps_of_announced h hop
  rw [operationTouchedRecordKey_eq hrec]
  by_cases hfield : op.action.field = "key"
  swap
  · rw [if_neg hfield, Option.none_or]
  rw [if_pos hfield]
  cases hassigned : op.action.assignedKey with
  | none => rw [Option.none_or]
  | some key =>
    -- the operation writes a key; the last one on its slot decides what stays there
    obtain ⟨last, hlast⟩ : ∃ last,
        ((acceptedOps log).filter (Operation.at op.action.node "key")).getLast? = some last := by
      refine Option.isSome_iff_exists.mp (List.getLast?_isSome.mpr (List.ne_nil_of_mem
        (List.mem_filter.mpr ⟨hacc, ?_⟩)))
      simp [Operation.at, hfield]
    have hstays : recordKeyAt nodes op.action.node = last.action.assignedKey := by
      rw [hkeys op hacc, keyAfter, hlast]
    obtain ⟨hmem, hat⟩ := List.mem_filter.mp (List.mem_of_getLast? hlast)
    obtain ⟨hnode, hlastField⟩ : last.action.node = op.action.node ∧ last.action.field = "key" := by
      simpa [Operation.at] using hat
    rw [Option.some_or, hstays]
    by_cases hsame : fromOperation last = fromOperation op
    · have hfiltered := getLast?_filter_of_imp (q := (fromOperation · == fromOperation op)) hlast
        (by simp [hsame]) fun b hb => by
          obtain ⟨hbn, hbf, -⟩ := (fromOperation_eq_iff b op).mp (by simpa using hb)
          simp [Operation.at, hbn, hbf, hfield]
      rw [h.newest op hop, Option.some.injEq] at hfiltered
      rw [← hfiltered, hassigned]
    · -- a member operation came last, and is announced with an unknown key
      have hmember : ∀ o : Operation, fromOperation o = fromOperation last →
          o.action.assignedKey = none := by
        intro o ho
        have hne : fromOperation o ≠ fromOperation op := fun heq => hsame (ho.symm.trans heq)
        have hon := (fromOperation_eq_iff o last).mp ho
        rw [hnode, hlastField, ← hfield] at hon
        cases hao : o.action with
        | setField node field value =>
          refine absurd ?_ hne
          have hopKey : fromOperation op = .field op.action.node op.action.field := by
            cases hap : op.action <;> simp_all [OperationAction.assignedKey, fromOperation,
              OperationAction.node, OperationAction.field]
          rw [hopKey, ← hon.1, ← hon.2.1, fromOperation, hao]
          rfl
        | _ => rfl
      obtain ⟨o, ho, hokey⟩ := exists_announced h hun hmem
      obtain ⟨honode, -, -⟩ := (fromOperation_eq_iff o last).mp hokey
      have horec : operationIsRecordOp o = true := by
        rw [operationIsRecordOp, honode, hnode]
        exact hrec
      refine absurd ?_ (hknown o ho horec)
      rw [operationTouchedRecordKey_eq horec, hmember o hokey, ite_self, Option.none_or, honode,
        hnode, hstays, hmember last rfl]

private theorem mem_touchedRecords_iff (h : start.Grown queue (acceptedOps log))
    (hun : Unqueued start log) (node : NodeId) :
    node ∈ touchedRecords log ↔ ∃ op ∈ queue.operations.drop start.len,
      operationIsRecordOp op = true ∧ op.action.node = node := by
  simp only [touchedRecords, List.mem_map, List.mem_filter]
  constructor
  · rintro ⟨op, ⟨hop, hrec⟩, rfl⟩
    obtain ⟨o, ho, hkey⟩ := exists_announced h hun hop
    obtain ⟨hnode, -, -⟩ := (fromOperation_eq_iff o op).mp hkey
    refine ⟨o, ho, ?_, hnode⟩
    rw [operationIsRecordOp, hnode]
    exact hrec
  · rintro ⟨op, hop, hrec, rfl⟩
    exact ⟨op, ⟨mem_acceptedOps_of_announced h hop, hrec⟩, rfl⟩

/-- Without queued slots, all record keys are announced exactly when none is given up. -/
theorem records_iff (h : start.Grown queue (acceptedOps log)) (hun : Unqueued start log)
    (hkeys : ∀ op ∈ acceptedOps log,
      recordKeyAt nodes op.action.node = keyAfter log op.action.node) :
    (∀ node ∈ touchedRecords log, ∀ key,
      keyBefore log node = some key ∨ recordKeyAt nodes node = some key →
        key ∈ (ChangeImpact.fromOps (queue.operations.drop start.len) nodes).touchedRecordKeys ∨
          (ChangeImpact.fromOps (queue.operations.drop start.len) nodes).broad = true) ↔
      KeysKept log := by
  have hmem := mem_touchedRecords_iff h hun
  have hafter : ∀ node ∈ touchedRecords log, recordKeyAt nodes node = keyAfter log node := by
    intro node hnode
    obtain ⟨op, hop, -, rfl⟩ := (hmem node).mp hnode
    exact hkeys op (mem_acceptedOps_of_announced h hop)
  rw [ChangeImpact.broad_fromOps]
  by_cases hknown : ∀ op ∈ queue.operations.drop start.len, operationIsRecordOp op = true →
      operationTouchedRecordKey op nodes ≠ none
  · -- each touched record is announced under its last key
    have hlast : ∀ op ∈ queue.operations.drop start.len, operationIsRecordOp op = true →
        operationTouchedRecordKey op nodes = recordKeyAt nodes op.action.node :=
      fun op hop hrec => touchedRecordKey_eq h hun hkeys hknown hop hrec
    have hlisted : ∀ key,
        key ∈ (ChangeImpact.fromOps (queue.operations.drop start.len) nodes).touchedRecordKeys ↔
          ∃ node ∈ touchedRecords log, keyAfter log node = some key := by
      intro key
      rw [ChangeImpact.mem_touchedRecordKeys, and_iff_right hknown]
      constructor
      · rintro ⟨op, hop, hrec, hkey⟩
        have hnode := (hmem _).mpr ⟨op, hop, hrec, rfl⟩
        exact ⟨_, hnode, by rw [← hafter _ hnode, ← hlast op hop hrec, hkey]⟩
      · rintro ⟨node, hnode, hkey⟩
        obtain ⟨op, hop, hrec, rfl⟩ := (hmem node).mp hnode
        exact ⟨op, hop, hrec, by rw [hlast op hop hrec, hafter _ hnode, hkey]⟩
    have hnarrow : ¬ ∃ op ∈ queue.operations.drop start.len,
        operationIsRecordOp op = true ∧ operationTouchedRecordKey op nodes = none := by
      rintro ⟨op, hop, hrec, hnone⟩
      exact hknown op hop hrec hnone
    have hheld : ¬ ∃ node ∈ touchedRecords log, keyAfter log node = none := by
      rintro ⟨node, hnode, hnone⟩
      obtain ⟨op, hop, hrec, rfl⟩ := (hmem node).mp hnode
      exact hknown op hop hrec (by rw [hlast op hop hrec, hafter _ hnode, hnone])
    simp only [hnarrow, or_false, hlisted, KeysKept, hheld, false_or]
    refine forall₂_congr fun node hnode => forall_congr' fun key => ?_
    refine ⟨fun hk hb => hk (Or.inl hb), fun hk hb => hb.elim hk fun ha => ?_⟩
    exact ⟨node, hnode, by rw [← hafter node hnode, ha]⟩
  · -- a record is left without a key
    push Not at hknown
    obtain ⟨op, hop, hrec, hnone⟩ := hknown
    have hnode := (hmem _).mpr ⟨op, hop, hrec, rfl⟩
    refine iff_of_true (fun _ _ _ _ => Or.inr ⟨op, hop, hrec, hnone⟩) (Or.inl ⟨_, hnode, ?_⟩)
    rw [operationTouchedRecordKey_eq hrec] at hnone
    rw [← hafter _ hnode]
    exact (Option.or_eq_none_iff.mp hnone).2

/-- A suffix of the queue announces a transaction exactly when no slot was queued and no record
key is given up. -/
theorem announces_iff (h : start.Grown queue (acceptedOps log)) (hops : acceptedOps log ≠ [])
    (hkeys : ∀ op ∈ acceptedOps log,
      recordKeyAt nodes op.action.node = keyAfter log op.action.node) :
    (ChangeImpact.fromOps (queue.operations.drop start.len) nodes).Announces
        (queue.operations.drop start.len).length log nodes ↔
      Unqueued start log ∧ KeysKept log := by
  constructor
  · intro ha
    have hun := (counted_iff h).mp ha.counted
    exact ⟨hun, (records_iff h hun hkeys).mp ha.records⟩
  · rintro ⟨hun, hkept⟩
    refine ⟨?_, fun op hop => ?_, (records_iff h hun hkeys).mpr hkept, (counted_iff h).mpr hun⟩
    · obtain ⟨op, hop⟩ := List.exists_mem_of_ne_nil _ hops
      obtain ⟨o, ho, -⟩ := exists_announced h hun hop
      have hne : queue.operations.drop start.len ≠ [] := List.ne_nil_of_mem ho
      simp only [ChangeImpact.isEmpty, ChangeImpact.fromOps, List.isEmpty_eq_false_iff.mpr hne,
        Bool.not_false, Bool.not_true, Bool.false_and]
    · obtain ⟨o, ho, hkey⟩ := exists_announced h hun hop
      obtain ⟨hnode, hfield, -⟩ := (fromOperation_eq_iff o op).mp hkey
      refine ChangeImpact.mem_touchedPaths.mpr ⟨o, ho, ?_⟩
      rw [operationTouchedPath, operationTouchedPath, hnode, hfield]

end Suffix

variable {σ : Type} [RecordStore σ]

/-- The impact a transaction announces. -/
def Database.announcement (db : Database σ) (s : Session σ) : ChangeImpact :=
  .fromOps (s.announced db.inner.unflushedOps.len) (db.committed s).inner.nodes

/-- The impact and the count of a transaction that lets some operation in announce it in full
exactly when none of its slots was in the unflushed queue and no changed record gave up its key. -/
theorem Database.announcement_iff (db : Database σ) {α : Type} {program : Program α}
    {r : Except PrimadbError α} {s : Session σ} (hqueues : db.inner.QueuesWf)
    (hstore : db.inner.KeyedStore)
    (hrun : program.run Session.exec (Session.start db.inner db.scheduledNodeFetches) = (r, s))
    (hops : acceptedOps (db.issued program) ≠ []) :
    (db.announcement s).Announces (s.announced db.inner.unflushedOps.len).length
        (db.issued program) (db.committed s).inner.nodes ↔
      Unqueued db.inner.unflushedOps (db.issued program) ∧ KeysKept (db.issued program) := by
  have hsteps := Session.run_steps program
    (s := Session.start db.inner db.scheduledNodeFetches) hstore
  rw [hrun] at hsteps
  have hnodes : (db.committed s).inner.nodes = s.inner.nodes :=
    congrArg Ledger.nodes (db.committed_ledger s)
  rw [Database.announcement, hnodes]
  exact announces_iff (hsteps.grown hqueues.unflushedOps) hops fun op hop =>
    hsteps.recordKeyAt_eq ⟨op, hop, rfl⟩

end Primadb
