import Primadb.Db.RecordWatch
import Primadb.Db.SnapshotLog
import Primadb.Engine.Transaction

/-!
# The records of a search collection

A vector or text collection keeps its configuration and its items as records whose keys start
with the name of the collection in hexadecimal. Decoding gives the name back, so every change
of those records is announced under a key of the collection.
-/

namespace Primadb

theorem startsWith_append (start rest : String) : startsWith (start ++ rest) start = true := by
  simp [startsWith_iff]

namespace Inner

variable {σ : Type}

/-- The record in the key and value slots of a node. -/
def slotRecord (key value : Slot) : Option RecordEntry :=
  match key.recordKey with
  | none => none
  | some key =>
    match value.field with
    | some ⟨.scalar value, _⟩ => some ⟨key, .json value⟩
    | some ⟨.bytes value, _⟩ => some ⟨key, .bytes value⟩
    | some ⟨.blob reference, _⟩ => some ⟨key, .blob reference⟩
    | some ⟨.link _, _⟩ | some ⟨.set _, _⟩ | none => none

/-- `record_entry_from_inner` on a database without a store. -/
def recordEntry [Blake3] (inner : Inner σ) (key : String) : Option RecordEntry :=
  (inner.nodes[recordNodeId key]?.bind recordEntryFromNodeState).filter (·.key == key)

private theorem recordEntryFromNodeState_eq (nodes : BTreeMap NodeId NodeState) (n : NodeId) :
    nodes[n]?.bind recordEntryFromNodeState =
      slotRecord (slotAt nodes n "key") (slotAt nodes n "value") := by
  rw [slotAt, slotAt]
  cases nodes[n]? with
  | none => rfl
  | some state => rfl

/-- A record that is read has its key. -/
theorem recordKeyAt_of_recordEntry [Blake3] {inner : Inner σ} {q : String} {entry : RecordEntry}
    (h : inner.recordEntry q = some entry) :
    recordKeyAt inner.nodes (recordNodeId q) = some q := by
  obtain ⟨hentry, hkey⟩ := Option.filter_eq_some_iff.mp h
  obtain ⟨state, hstate, hread⟩ := Option.bind_eq_some_iff.mp hentry
  rw [recordKeyAt, hstate, Option.bind_some]
  rw [recordEntryFromNodeState] at hread
  cases hq : recordKeyFromNodeState state with
  | none => simp [hq] at hread
  | some key =>
    rw [hq] at hread
    have hsame : entry.key = key := by
      dsimp only at hread
      split at hread <;> first | (cases hread; rfl) | cases hread
    rw [← hsame, beq_iff_eq.mp hkey]

/-- An operation changes slots of its node only, and only when it is accepted. -/
theorem applyOperationInternal_slot_of_ne {inner : Inner σ} {op : Operation}
    {origin : OperationOrigin} {n : NodeId} {f : String}
    (hchanged : slotAt (inner.applyOperationInternal op origin).2.nodes n f ≠
      slotAt inner.nodes n f) :
    (inner.applyOperationInternal op origin).1 = true ∧ op.action.node = n := by
  rw [applyOperationInternal] at hchanged ⊢
  split at hchanged
  · rename_i hadmits
    rw [applyAdmitted_nodes, slotAt_applyToNodes] at hchanged
    split at hchanged
    · rename_i hat
      obtain ⟨hnode, hfield⟩ := Operation.at_iff.mp hat
      rw [if_pos hadmits, (inner.applyAdmitted_eq op origin).1, applyToNodes_accepts]
      refine ⟨?_, hnode⟩
      by_contra hrefused
      rw [hnode, hfield, Bool.not_eq_true] at hrefused
      exact hchanged (Slot.apply_of_not_accepts hrefused)
    · exact absurd rfl hchanged
  · exact absurd rfl hchanged

/-- An operation changes a record that is read only under a key it explains. -/
theorem applyOperationInternal_recordEntry [Blake3] {inner : Inner σ} (op : Operation)
    (origin : OperationOrigin) {q : String}
    (hchanged : (inner.applyOperationInternal op origin).2.recordEntry q ≠ inner.recordEntry q) :
    (inner.applyOperationInternal op origin).1 = true ∧ Explains inner.nodes q op := by
  obtain ⟨f, hslot⟩ : ∃ f, slotAt (inner.applyOperationInternal op origin).2.nodes
      (recordNodeId q) f ≠ slotAt inner.nodes (recordNodeId q) f := by
    by_contra hsame
    push Not at hsame
    refine hchanged ?_
    rw [recordEntry, recordEntry, recordEntryFromNodeState_eq, recordEntryFromNodeState_eq,
      hsame "key", hsame "value"]
  obtain ⟨haccepted, hnode⟩ := applyOperationInternal_slot_of_ne hslot
  have hrecord : isRecordNodeId (recordNodeId q) = true := startsWith_append _ _
  -- the record is there before or after, and its node has the key then
  have hstored : recordKeyAt inner.nodes (recordNodeId q) = some q ∨
      (inner.applyOperationInternal op origin).1 = true ∧ Explains inner.nodes q op := by
    cases hbefore : inner.recordEntry q with
    | some entry => exact Or.inl (recordKeyAt_of_recordEntry hbefore)
    | none =>
      rw [hbefore] at hchanged
      obtain ⟨entry, hafter⟩ := Option.ne_none_iff_exists'.mp hchanged
      exact Explains.of_stored hrecord (recordKeyAt_of_recordEntry hafter)
  rcases hstored with hstored | hexplains
  · exact ⟨haccepted, hnode ▸ hrecord, Or.inr (hnode ▸ hstored)⟩
  · exact hexplains

end Inner

section Derived

variable [Blake3] {σ : Type}

/-- A record node has the id derived from a key, when it has one. -/
def DerivedKey (n : NodeId) (key : Option String) : Prop :=
  isRecordNodeId n = true → ∀ q, key = some q → n = recordNodeId q

/-- An operation on the key of a record node assigns the key its id is derived from. -/
def Operation.KeepsKey (op : Operation) : Prop :=
  op.action.field = "key" → DerivedKey op.action.node op.action.assignedKey

/-- Batches keep records well formed. -/
theorem Inner.RecordsWf.applyBatch {inner : Inner σ} (h : inner.RecordsWf)
    (batch : List (Operation × OperationOrigin)) (hbatch : ∀ entry ∈ batch, entry.1.KeepsKey) :
    (inner.applyBatch batch).2.RecordsWf := by
  induction batch generalizing inner with
  | nil => exact h
  | cons first batch ih =>
    obtain ⟨op, origin⟩ := first
    refine ih ?_ fun entry hentry => hbatch entry (List.mem_cons_of_mem _ hentry)
    intro n q hn hq
    rcases inner.applyOperationInternal_records op origin with
      ⟨-, -, -, hstored⟩ | ⟨-, hnodes, hacc, -⟩
    · exact h n q hn (hstored n ▸ hq)
    · rw [hnodes, recordKeyAt_applyToNodes hacc] at hq
      split at hq
      · rename_i hat
        obtain ⟨rfl, hfield⟩ := Operation.at_iff.mp hat
        exact hbatch (op, origin) List.mem_cons_self hfield hn q hq
      · exact h n q hn hq

end Derived

end Primadb
