import Primadb.Data.CompactedQueue
import Primadb.Graph.Convergence

/-!
# The queue of a slot

A replica queues the operations its own slots accept. The queue keeps the last
reset and the last operation on every member, so that what a reader sees in the
slot follows from the queue alone, in whatever order the accepted markers came.
-/

namespace Primadb

open LastWriter

/-- Whether a slot takes an operation in. -/
def Slot.accepts (slot : Slot) (op : SlotOp) : Bool :=
  match op.action with
  | .assign _ | .delete => !slot.blocksReset op.marker
  | .member _ id =>
    !blocks slot.tombstone op.marker &&
      match slot.field with
      | none => true
      | some ⟨.set set, _⟩ =>
        !(decide (op.marker ≤ set.baseline) ||
          (blocks set.members[id]? op.marker || blocks set.removed[id]? op.marker))
      | some ⟨_, version⟩ => !decide (op.marker ≤ version)

namespace NodeState

private theorem guarded_accepts (refused : Bool) (old new : NodeState) :
    (if refused then (old, false) else (new, true)).2 = !refused := by
  cases refused <;> rfl

private theorem applyMember_accepts (present : Bool) (baseline : VersionMarker) (state : NodeState)
    (field : String) (id : NodeId) (marker : VersionMarker) :
    (applyMember present baseline state field id marker).2 =
      (state.slot field).accepts ⟨marker, .member present id⟩ := by
  unfold applyMember Slot.accepts
  simp only [slot]
  by_cases ht : blocks state.tombstones[field]? marker
  · simp [ht]
  · simp only [ht, Bool.false_eq_true, if_false, Bool.not_false, Bool.true_and]
    rcases state.fields[field]? with _ | ⟨value, version⟩
    · rfl
    · cases value with
      | set set =>
        by_cases hb : marker ≤ set.baseline
        · simp [hb]
        · simp only [hb, if_false, decide_false, Bool.false_or]
          exact guarded_accepts _ _ _
      | _ => by_cases hv : marker ≤ version <;> simp [hv]

private theorem applyAction_accepts (state : NodeState) (action : OperationAction)
    (marker : VersionMarker) :
    (state.applyAction action marker).2 =
      (state.slot action.field).accepts ⟨marker, action.slotAction⟩ := by
  cases action with
  | setField _ field value => exact guarded_accepts _ _ _
  | addSetMember _ field member => exact applyMember_accepts true marker state field member marker
  | removeSetMember _ field member =>
    exact applyMember_accepts false zeroMarker state field member marker
  | deleteField _ field =>
    refine (guarded_accepts _ _ _).trans ?_
    simp only [Slot.accepts, OperationAction.slotAction, Slot.blocksReset, slot,
      OperationAction.field, Bool.or_comm]

end NodeState

/-- A graph accepts what the slot accepts. -/
theorem applyToNodes_accepts (nodes : BTreeMap NodeId NodeState) (op : Operation) :
    (applyToNodes nodes op).2 =
      (slotAt nodes op.action.node op.action.field).accepts op.slotOp := by
  simp only [applyToNodes, NodeState.applyAction_accepts, nodeEntry_slot]
  rfl

namespace Slot

/-- The slot holds a set. -/
def IsSet (slot : Slot) : Prop := ∃ set v, slot.field = some ⟨.set set, v⟩

/-- The slot holds a set with the member. -/
def Has (slot : Slot) (id : NodeId) : Prop :=
  ∃ set v, slot.field = some ⟨.set set, v⟩ ∧ id ∈ set.members

variable {slot other : Slot} {m k : VersionMarker}

/-- A refused operation leaves the slot alone. -/
theorem apply_of_not_accepts {op : SlotOp} (h : slot.accepts op = false) :
    slot.apply op = slot := by
  obtain ⟨marker, action⟩ := op
  cases action with
  | member present id =>
    simp only [accepts, apply] at h ⊢
    by_cases ht : blocks slot.tombstone marker
    · simp [ht]
    · simp only [ht, Bool.false_eq_true, if_false, Bool.not_false, Bool.true_and] at h ⊢
      rcases hf : slot.field with _ | ⟨value, version⟩
      · simp [hf] at h
      · rw [hf] at h
        cases value <;> simp_all
  | _ => simp_all [accepts, apply]

theorem apply_reset_of_accepts {r : SlotOp} (hr : r.IsReset) (h : slot.accepts r = true) :
    slot.blocksReset r.marker = false ∧ slot.apply r = r.result := by
  have hb : slot.blocksReset r.marker = false := by
    obtain ⟨marker, action⟩ := r
    cases action with
    | member present id => exact absurd rfl (hr present id)
    | _ => simpa [accepts] using h
  exact ⟨hb, apply_reset_accepted hr hb⟩

private theorem has_iff {set : SetState} {v : VersionMarker} (h : slot.field = some ⟨.set set, v⟩)
    (x : NodeId) : slot.Has x ↔ x ∈ set.members := by
  constructor
  · rintro ⟨other, w, hother, hx⟩
    rw [h] at hother
    cases hother
    exact hx
  · exact fun hx => ⟨set, v, h, hx⟩

private theorem not_has {slot : Slot} (h : ∀ set v, slot.field ≠ some ⟨.set set, v⟩) (x : NodeId) :
    ¬ slot.Has x := by
  rintro ⟨set, v, hs, -⟩
  exact h set v hs

private theorem mem_record (set : SetState) (present : Bool) (id x : NodeId) (m : VersionMarker) :
    x ∈ (set.record present id m).members ↔ if x = id then present = true else x ∈ set.members := by
  simp only [Std.ExtTreeMap.mem_iff_isSome_getElem?]
  by_cases hx : x = id
  · subst hx
    cases present <;> simp [SetState.record]
  · have hx' : id ≠ x := fun h => hx h.symm
    cases present <;> simp [SetState.record, hx, hx']

private theorem isSet_has_of_record {set : SetState} {v : VersionMarker} {present : Bool}
    {id : NodeId} (h : slot.field = some ⟨.set (set.record present id m), v⟩) :
    slot.IsSet ∧ ∀ x, slot.Has x ↔ if x = id then present = true else x ∈ set.members :=
  ⟨⟨_, _, h⟩, fun x => (has_iff h x).trans (mem_record set present id x m)⟩

/-- The three ways to accept a member operation: into an absent field, by conversion of a plain
value, and into a set. -/
theorem accepts_member_cases {present : Bool} {id : NodeId}
    (h : slot.accepts ⟨m, .member present id⟩ = true) :
    blocks slot.tombstone m = false ∧
      ((slot.field = none ∧
          slot.apply ⟨m, .member present id⟩ = slot.startSet zeroMarker present id m) ∨
        (∃ value version, slot.field = some ⟨value, version⟩ ∧ (∀ set, value ≠ .set set) ∧
          version < m ∧ slot.apply ⟨m, .member present id⟩ =
            slot.startSet (conversionBaseline present m) present id m) ∨
        ∃ set version, slot.field = some ⟨.set set, version⟩ ∧ set.baseline < m ∧
          slot.apply ⟨m, .member present id⟩ =
            { slot with field := some ⟨.set (set.record present id m), max version m⟩ }) := by
  simp only [accepts, Bool.and_eq_true, Bool.not_eq_true'] at h
  obtain ⟨ht, h⟩ := h
  refine ⟨ht, ?_⟩
  rcases hf : slot.field with _ | ⟨value, version⟩
  · exact Or.inl ⟨rfl, by simp [apply, ht, hf]⟩
  · rw [hf] at h
    cases value with
    | set set =>
      simp only [Bool.not_eq_true', Bool.or_eq_false_iff, decide_eq_false_iff_not] at h
      refine Or.inr (Or.inr ⟨set, version, rfl, not_le.mp h.1, ?_⟩)
      simp [apply, ht, hf, h.1, h.2.1, h.2.2]
    | _ =>
      simp only [Bool.not_eq_true', decide_eq_false_iff_not] at h
      refine Or.inr (Or.inl ⟨_, version, rfl, by simp, not_le.mp h, ?_⟩)
      simp [apply, ht, hf, h]

/-- An accepted member operation leaves a set that differs in its member only. -/
theorem isSet_has_of_accepts {present : Bool} {id : NodeId}
    (h : slot.accepts ⟨m, .member present id⟩ = true) :
    (slot.apply ⟨m, .member present id⟩).IsSet ∧
      ∀ x, (slot.apply ⟨m, .member present id⟩).Has x ↔
        if x = id then present = true else slot.Has x := by
  have hstart : ∀ baseline, (∀ set v, slot.field ≠ some ⟨.set set, v⟩) →
      (slot.startSet baseline present id m).IsSet ∧ ∀ x,
        (slot.startSet baseline present id m).Has x ↔
          if x = id then present = true else slot.Has x := by
    intro baseline hnone
    obtain ⟨hset, hhas⟩ := isSet_has_of_record
      (show (slot.startSet baseline present id m).field = some _ from rfl)
    refine ⟨hset, fun x => (hhas x).trans ?_⟩
    split
    · rfl
    · simp [not_has hnone x]
  obtain ⟨-, ⟨hf, heq⟩ | ⟨value, version, hf, hv, -, heq⟩ | ⟨set, version, hf, -, heq⟩⟩ :=
    accepts_member_cases h
  · rw [heq]
    exact hstart _ (by simp [hf])
  · rw [heq]
    exact hstart _ (by simpa [hf] using hv)
  · rw [heq]
    obtain ⟨hset, hhas⟩ := isSet_has_of_record (show Slot.field
      { slot with field := some ⟨.set (set.record present id m), max version m⟩ } = some _ from rfl)
    refine ⟨hset, fun x => (hhas x).trans ?_⟩
    rw [has_iff hf]

/-- An accepted operation leaves the slot written. -/
theorem apply_ne_empty_of_accepts {op : SlotOp} (h : slot.accepts op = true) :
    slot.apply op ≠ Slot.empty := by
  rcases op.member_or_isReset with ⟨m, present, id, rfl⟩ | hr
  · obtain ⟨⟨set, v, hset⟩, -⟩ := isSet_has_of_accepts h
    intro he
    rw [he] at hset
    cases hset
  · rw [(apply_reset_of_accepts hr h).2, SlotOp.result]
    obtain ⟨marker, action⟩ := op
    cases action with
    | member present id => exact absurd rfl (hr present id)
    | _ => simp [apply, blocksReset, Slot.empty]

end Slot

/-- A refused operation changes no slot. -/
theorem slotAt_refused {nodes : BTreeMap NodeId NodeState} {op : Operation}
    (h : (applyToNodes nodes op).2 = false) (n : NodeId) (f : String) :
    slotAt (applyToNodes nodes op).1 n f = slotAt nodes n f := by
  rw [slotAt_applyToNodes]
  split
  · rename_i hat
    simp only [Operation.at, Bool.and_eq_true, beq_iff_eq] at hat
    obtain ⟨rfl, rfl⟩ := hat
    rw [applyToNodes_accepts] at h
    exact Slot.apply_of_not_accepts h
  · rfl

namespace SlotOp

/-- What a queue keeps one operation of: the slot itself, or one member. -/
def key (op : SlotOp) : Option NodeId :=
  match op.action with
  | .member _ id => some id
  | _ => none

end SlotOp

namespace OperationCompactionKey

/-- Operations of one compaction key. -/
theorem fromOperation_eq_iff (a b : Operation) :
    fromOperation a = fromOperation b ↔
      a.action.node = b.action.node ∧ a.action.field = b.action.field ∧
        a.slotOp.key = b.slotOp.key := by
  obtain ⟨_, _, _, action⟩ := a
  obtain ⟨_, _, _, action'⟩ := b
  cases action <;> cases action' <;>
    simp [fromOperation, Operation.slotOp, SlotOp.key, OperationAction.slotAction,
      OperationAction.node, OperationAction.field]

end OperationCompactionKey

/-- Storing the entry of a present node changes nothing. -/
theorem insert_nodeEntry {nodes : BTreeMap NodeId NodeState} {node : NodeId} (h : node ∈ nodes) :
    nodes.insert node (nodeEntry nodes node) = nodes := by
  refine Std.ExtTreeMap.ext_getElem? fun n => ?_
  rw [BTreeMap.get_insert]
  split
  · rename_i heq
    subst heq
    obtain ⟨state, hstate⟩ := Option.isSome_iff_exists.mp
      (Std.ExtTreeMap.mem_iff_isSome_getElem?.mp h)
    rw [nodeEntry, hstate, Option.getD_some]
  · rfl

/-- A refused operation on a present node changes nothing. -/
theorem applyToNodes_refused {nodes : BTreeMap NodeId NodeState} {op : Operation}
    (h : op.action.node ∈ nodes) (hrefused : (applyToNodes nodes op).2 = false) :
    (applyToNodes nodes op).1 = nodes := by
  have hstate : ((nodeEntry nodes op.action.node).applyAction op.action op.marker).1 =
      nodeEntry nodes op.action.node := by
    refine NodeState.ext_slot (NodeState.applyAction_id _ _ _) fun f => ?_
    have hslot := slotAt_refused hrefused op.action.node f
    rwa [applyToNodes, slotAt_insert, if_pos rfl, ← nodeEntry_slot] at hslot
  rw [applyToNodes, hstate]
  exact insert_nodeEntry h

end Primadb
