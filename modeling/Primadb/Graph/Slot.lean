import Primadb.Core.LastWriter
import Primadb.Graph.Apply

/-!
# Slots

A slot is one field of one node together with its tombstone. Every operation
acts on exactly one slot, so the node map after any sequence of operations is
determined slot by slot, each slot by the operations that name it.
-/

namespace Primadb

open LastWriter

/-- One field of one node: its state and its tombstone. -/
@[ext] structure Slot where
  /-- The field state, when the field is present. -/
  field : Option FieldState
  /-- The marker of the latest accepted delete. -/
  tombstone : Option VersionMarker
  deriving DecidableEq

/-- The slot of a field that was never written. -/
def Slot.empty : Slot := ⟨none, none⟩

/-- What an operation does to its slot. -/
inductive SlotAction where
  | assign (value : OperationValue)
  | member (present : Bool) (id : NodeId)
  | delete
  deriving DecidableEq

/-- An operation as seen by its slot. -/
@[ext] structure SlotOp where
  /-- The marker of the operation. -/
  marker : VersionMarker
  /-- Its effect. -/
  action : SlotAction
  deriving DecidableEq

/-- The effect of an action on its slot. -/
def OperationAction.slotAction : OperationAction → SlotAction
  | .setField _ _ value => .assign value
  | .addSetMember _ _ member => .member true member
  | .removeSetMember _ _ member => .member false member
  | .deleteField _ _ => .delete

/-- An operation as seen by its slot. -/
def Operation.slotOp (op : Operation) : SlotOp := ⟨op.marker, op.action.slotAction⟩

@[simp] theorem Operation.slotOp_marker (op : Operation) : op.slotOp.marker = op.marker := rfl

/-- Whether an operation changes the given slot. -/
def Operation.at (node : NodeId) (field : String) (op : Operation) : Bool :=
  op.action.node == node && op.action.field == field

/-- The operations of a sequence on one slot. -/
def slotOps (ops : List Operation) (node : NodeId) (field : String) : List SlotOp :=
  (ops.filter (Operation.at node field)).map Operation.slotOp

/-- The slot of a field in a node state. -/
def NodeState.slot (state : NodeState) (field : String) : Slot :=
  ⟨state.fields[field]?, state.tombstones[field]?⟩

/-- The slot of a field in a node map. -/
def slotAt (nodes : BTreeMap NodeId NodeState) (node : NodeId) (field : String) : Slot :=
  (nodes[node]?.map (NodeState.slot · field)).getD Slot.empty

/-- The baseline of the set that replaces a value of another kind. -/
def conversionBaseline (present : Bool) (marker : VersionMarker) : VersionMarker :=
  if present then marker else zeroMarker

/-- Replace an absent field or a value of another kind by a set of one entry. -/
def Slot.startSet (slot : Slot) (baseline : VersionMarker) (present : Bool) (id : NodeId)
    (marker : VersionMarker) : Slot :=
  { slot with field := some ⟨.set (SetState.record ⟨baseline, ∅, ∅⟩ present id marker), marker⟩ }

/-- The marker a reset has to exceed. -/
def Slot.blocksReset (slot : Slot) (marker : VersionMarker) : Bool :=
  blocks slot.tombstone marker || blocks (slot.field.map FieldState.version) marker

/-- The effect of an operation on its slot. -/
def Slot.apply (slot : Slot) (op : SlotOp) : Slot :=
  match op.action with
  | .assign value =>
    if slot.blocksReset op.marker then slot
    else ⟨some ⟨value.toFieldValue op.marker, op.marker⟩, none⟩
  | .member present id =>
    if blocks slot.tombstone op.marker then slot
    else
      match slot.field with
      | none => slot.startSet zeroMarker present id op.marker
      | some ⟨.set set, version⟩ =>
        if op.marker ≤ set.baseline ||
            (blocks set.members[id]? op.marker || blocks set.removed[id]? op.marker) then slot
        else { slot with
          field := some ⟨.set (set.record present id op.marker), max version op.marker⟩ }
      | some ⟨_, version⟩ =>
        if op.marker ≤ version then slot
        else slot.startSet (conversionBaseline present op.marker) present id op.marker
  | .delete =>
    if slot.blocksReset op.marker then slot else ⟨none, some op.marker⟩

/-- The slot after a sequence of operations. -/
def Slot.run (slot : Slot) (ops : List SlotOp) : Slot := ops.foldl Slot.apply slot

namespace NodeState

@[simp] theorem new_slot (id : NodeId) (field : String) : (new id).slot field = Slot.empty := by
  simp [new, slot, Slot.empty]

private theorem applySetField_slot (state : NodeState) (field : String) (value : OperationValue)
    (marker : VersionMarker) (f : String) :
    (state.applySetField field value marker).1.slot f =
      if field = f then (state.slot f).apply ⟨marker, .assign value⟩ else state.slot f := by
  unfold applySetField Slot.apply Slot.blocksReset
  by_cases hf : field = f
  · subst hf
    simp only [slot, if_true]
    split <;> simp_all
  · simp only [slot, hf, if_false]
    split <;> simp_all

private theorem applyDeleteField_slot (state : NodeState) (field : String) (marker : VersionMarker)
    (f : String) :
    (state.applyDeleteField field marker).1.slot f =
      if field = f then (state.slot f).apply ⟨marker, .delete⟩ else state.slot f := by
  unfold applyDeleteField Slot.apply Slot.blocksReset
  by_cases hf : field = f
  · subst hf
    simp only [slot, if_true, Bool.or_comm]
    split <;> simp_all
  · simp only [slot, hf, if_false]
    split <;> simp_all

private theorem applyMember_slot (present : Bool) (state : NodeState) (field : String) (id : NodeId)
    (marker : VersionMarker) (f : String) :
    (applyMember present (conversionBaseline present marker) state field id marker).1.slot f =
      if field = f then (state.slot f).apply ⟨marker, .member present id⟩ else state.slot f := by
  unfold applyMember Slot.apply Slot.startSet
  by_cases hf : field = f
  · subst hf
    simp only [slot, if_true]
    by_cases ht : blocks state.tombstones[field]? marker
    · simp [ht]
    · simp only [ht, Bool.false_eq_true, if_false]
      rcases hs : state.fields[field]? with _ | ⟨value, version⟩
      · simp
      · cases value with
        | set set =>
          have hmax : (if marker > version then marker else version) = max version marker := by
            rcases lt_or_ge version marker with h | h
            · simp [h, h.le]
            · simp [not_lt.mpr h, h]
          simp only [Bool.or_eq_true, decide_eq_true_eq]
          by_cases hb : marker ≤ set.baseline
          · simp [hb, hs]
          · by_cases hm : blocks set.members[id]? marker = true ∨ blocks set.removed[id]? marker
            · simp [hb, hm, hs]
            · simp [hb, hm, hmax]
        | _ =>
          by_cases hv : marker ≤ version
          · simp [hv, hs]
          · simp [hv]
  · simp only [slot, hf, if_false]
    by_cases ht : blocks state.tombstones[field]? marker
    · simp [ht]
    · simp only [ht, Bool.false_eq_true, if_false]
      rcases hs : state.fields[field]? with _ | ⟨value, version⟩
      · simp [hf]
      · cases value <;> simp only [Bool.or_eq_true] <;> split <;> (try split) <;> simp [hf]

/-- An action acts on the slot of its field alone. -/
theorem applyAction_slot (state : NodeState) (action : OperationAction) (marker : VersionMarker)
    (f : String) :
    (state.applyAction action marker).1.slot f =
      if action.field = f then (state.slot f).apply ⟨marker, action.slotAction⟩
      else state.slot f := by
  cases action with
  | setField _ field value => exact state.applySetField_slot field value marker f
  | addSetMember _ field member => exact applyMember_slot true state field member marker f
  | removeSetMember _ field member => exact applyMember_slot false state field member marker f
  | deleteField _ field => exact state.applyDeleteField_slot field marker f

theorem applyAction_id (state : NodeState) (action : OperationAction) (marker : VersionMarker) :
    (state.applyAction action marker).1.id = state.id := by
  cases action <;>
    simp only [applyAction, applySetField, applyAddSetMember, applyRemoveSetMember, applyMember,
      applyDeleteField] <;>
    repeat' split
  all_goals rfl

/-- A node is determined by its id and slots. -/
theorem ext_slot {a b : NodeState} (hid : a.id = b.id) (h : ∀ f, a.slot f = b.slot f) : a = b := by
  have hf : a.fields = b.fields :=
    Std.ExtTreeMap.ext_getElem? fun f => congrArg Slot.field (h f)
  have ht : a.tombstones = b.tombstones :=
    Std.ExtTreeMap.ext_getElem? fun f => congrArg Slot.tombstone (h f)
  cases a
  cases b
  simp_all

end NodeState

theorem nodeEntry_slot (nodes : BTreeMap NodeId NodeState) (node : NodeId) (field : String) :
    (nodeEntry nodes node).slot field = slotAt nodes node field := by
  unfold nodeEntry slotAt
  cases nodes[node]? <;> simp

theorem slotAt_insert (nodes : BTreeMap NodeId NodeState) (node n : NodeId) (state : NodeState)
    (field : String) :
    slotAt (nodes.insert node state) n field =
      if node = n then state.slot field else slotAt nodes n field := by
  unfold slotAt
  by_cases hn : node = n <;> simp [hn]

/-- An operation changes exactly its slot. -/
theorem slotAt_applyToNodes (nodes : BTreeMap NodeId NodeState) (op : Operation) (n : NodeId)
    (f : String) :
    slotAt (applyToNodes nodes op).1 n f =
      if op.at n f then (slotAt nodes n f).apply op.slotOp else slotAt nodes n f := by
  simp only [applyToNodes, slotAt_insert, NodeState.applyAction_slot, nodeEntry_slot,
    Operation.at, Operation.slotOp, Bool.and_eq_true, beq_iff_eq]
  by_cases hn : op.action.node = n
  · subst hn
    simp
  · simp [hn]

/-- A slot evolves by the operations that name it. -/
theorem slotAt_foldl (ops : List Operation) (nodes : BTreeMap NodeId NodeState) (n : NodeId)
    (f : String) :
    slotAt (ops.foldl (fun nodes op => (applyToNodes nodes op).1) nodes) n f =
      (slotAt nodes n f).run (slotOps ops n f) := by
  induction ops generalizing nodes with
  | nil => rfl
  | cons op ops ih =>
    rw [List.foldl_cons, ih, slotAt_applyToNodes]
    by_cases h : op.at n f <;> simp [slotOps, h, Slot.run]

end Primadb
